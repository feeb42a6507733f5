import ProcessCalculus.Program.Simplification
import ProcessCalculus.Proofs.Order.Table
import ProcessCalculus.Proofs.Program.Outcome
import ProcessCalculus.Proofs.Program.Reading

/-!
# Simplified forms

What holds of the notes of simplification, and of the program that it rewrites: forms stand for the terms of which
they are forms, up to the laws, whoever refers to these terms and whether they were visited or not.

* `Program.simplifies_of_redex?`: each law is right for a node over any subterms.
* `Simplification.Sound`, `Simplification.Progress`: the invariant, and what one run does to a reading.
* `Simplification.ends_visit`, `Simplification.ends_simplify`, `Simplification.ends_simplifyProgram`: simplification
  succeeds and keeps the invariant.
-/

namespace ProcessCalculus

open Term

theorem LabelSet.isEmpty_iff {s : LabelSet} : s.isEmpty = true ↔ ∀ label, label ∉ s :=
  List.isEmpty_iff.trans List.eq_nil_iff_forall_not_mem

namespace Program

variable {p : Program} {r : Reading} {id : ProcessId} {node : Node ProcessId}

theorem isNull_iff : p.isNull id = true ↔ p.node? id = some .null := by
  unfold isNull
  cases p.node? id with
  | none => simp
  | some n => cases n <;> simp [Node.isNull]

/-- What a law leaves of a node may stand for the node. -/
theorem simplifies_of_redex? (hr : r.Valid Simplifies) {law : Law} {residual : Residual}
    (h : r.program.redex? node = some (law, residual)) :
    Simplifies (node.term r.term) (residual.term r.term) := by
  have hnull {c : ProcessId} (hc : r.program.isNull c = true) : r.term c = .null := hr.eq_null (isNull_iff.1 hc)
  cases node with
  | sum left right =>
    simp only [redex?] at h
    split at h
    · rename_i hn
      cases h
      simp only [Node.term, hnull hn]
      exact .sumNullLeft .null (.refl _)
    · split at h
      · rename_i hn
        cases h
        simp only [Node.term, hnull hn]
        exact .sumNullRight (.refl _) .null
      · split at h
        · rename_i heq
          cases h
          subst heq
          exact .sumSame (.refl _) (.refl _)
        · cases h
  | parallel left right =>
    simp only [redex?] at h
    split at h
    · rename_i hn
      cases h
      simp only [Node.term, hnull hn]
      exact .parallelNullLeft .null (.refl _)
    · split at h
      · rename_i hn
        cases h
        simp only [Node.term, hnull hn]
        exact .parallelNullRight (.refl _) .null
      · cases h
  | restrict body labels =>
    simp only [redex?] at h
    split at h
    · rename_i hn
      cases h
      simp only [Node.term, Residual.term, hnull hn]
      exact .restrictNull .null labels
    · split at h
      · rename_i he
        cases h
        exact .restrictEmpty (.refl _) (LabelSet.isEmpty_iff.1 he)
      · split at h
        · rename_i inner innerLabels hbody
          cases h
          exact .restrictMerge (hr.node_le hbody) fun label => LabelSet.mem_union
        · cases h
  | rename body renames =>
    simp only [redex?] at h
    split at h
    · rename_i hn
      cases h
      simp only [Node.term, Residual.term, hnull hn]
      exact .renameNull .null renames
    · cases h
  | _ => cases h

/-- A law leaves one of the subterms, or a node over identifiers of the program that is no name. -/
theorem within_of_redex? (hp : p.WellFormed) (hc : ∀ c ∈ node.children, c < p.size) {law : Law}
    {residual : Residual} (h : p.redex? node = some (law, residual)) : residual.Within p.size := by
  have hsub {c : ProcessId} (hm : c ∈ node.children) : (Residual.process c).Within p.size := hc c hm
  cases node with
  | sum left right =>
    simp only [redex?] at h
    split at h <;> [skip; (split at h <;> [skip; split at h])] <;> cases h
    all_goals exact hsub (by simp [Node.children])
  | parallel left right =>
    simp only [redex?] at h
    split at h <;> [skip; split at h] <;> cases h
    all_goals exact hsub (by simp [Node.children])
  | restrict body labels =>
    simp only [redex?] at h
    split at h
    · cases h
      exact hsub (by simp [Node.children])
    · split at h
      · cases h
        exact hsub (by simp [Node.children])
      · split at h
        · rename_i inner innerLabels hbody
          cases h
          exact ⟨rfl, fun c hm => hp.child_lt hbody c (by simpa [Node.children] using hm)⟩
        · cases h
  | rename body renames =>
    simp only [redex?] at h
    split at h <;> cases h
    exact hsub (by simp [Node.children])
  | _ => cases h

end Program

namespace Simplification

/-- In a reading, one identifier stands for a simplified form of what another one stands for. -/
structure IsForm (r : Reading) (id form : ProcessId) : Prop where
  lt : id < r.program.size
  form_lt : form < r.program.size
  simplifies : Simplifies (r.term id) (r.term form)

/-- What holds of a program, in a reading, and of the notes of simplification. -/
structure Sound (defs : String → Term → Prop) (r : Reading) (s : Simplification) : Prop where
  models : r.Models Simplifies defs
  isForm {id form : ProcessId} : s.form? id = some form → IsForm r id form

variable {defs : String → Term → Prop} {r r' : Reading} {s : Simplification} {id form : ProcessId}
  {node : Node ProcessId}

namespace IsForm

theorem keeps (h : IsForm r id form) (hk : r.Keeps r') : IsForm r' id form where
  lt := Nat.lt_of_lt_of_le h.lt hk.size_le
  form_lt := Nat.lt_of_lt_of_le h.form_lt hk.size_le
  simplifies := by
    rw [hk.term_eq h.lt, hk.term_eq h.form_lt]
    exact h.simplifies

end IsForm

@[simp] theorem form?_empty (id : ProcessId) : (∅ : Simplification).form? id = none :=
  Std.TreeMap.getElem?_emptyc

theorem form?_record (other : ProcessId) :
    (s.record id form).form? other = if id = other then some form else s.form? other :=
  Table.getElem?_insert s.forms id other form

namespace Sound

theorem of_models (h : r.Models Simplifies defs) : Sound defs r ∅ where
  models := h
  isForm h := by simp at h

/-- The notes of simplification outlive whatever is done to nodes, as long as the reading is kept. -/
theorem keeps (h : Sound defs r s) (hk : r.Keeps r') (hr : r'.Models Simplifies defs) : Sound defs r' s where
  models := hr
  isForm hf := (h.isForm hf).keeps hk

theorem record (h : Sound defs r s) (hf : IsForm r id form) : Sound defs r (s.record id form) where
  models := h.models
  isForm {other f} ho := by
    rw [form?_record] at ho
    split at ho
    · rename_i hid
      cases ho
      exact hid ▸ hf
    · exact h.isForm ho

theorem recordLaw (h : Sound defs r s) (law : Law) : Sound defs r (s.recordLaw law) where
  models := h.models
  isForm hf := h.isForm hf

end Sound

/-- A node over simplified subterms, with its own form found by applying at most one law. -/
theorem ends_contract (h : Sound defs r s) (hnode : r.program.node? id = some node) :
    Ends (contract id node) (r.program, s)
      (fun form t => ∃ r' s', t = (r'.program, s') ∧ Sound defs r' s' ∧ r.Rewrites r' ∧ IsForm r' id form)
      fun _ _ => False := by
  have hid := Program.lt_size_of_node? hnode
  unfold contract
  rw [ends_bind, ends_program]
  split
  · exact ⟨r, s, rfl, h, .refl r, hid, hid, .refl _⟩
  · rename_i law form hredex
    have hmeans := (h.models.node_le hnode).trans (Program.simplifies_of_redex? h.models.toValid hredex)
    have hlt := Program.within_of_redex? h.models.wellFormed (h.models.wellFormed.child_lt hnode) hredex
    rw [ends_bind, ends_modifyNotes]
    exact ⟨r, _, rfl, h.recordLaw law, .refl r, hid, hlt, hmeans⟩
  · rename_i law residual hredex
    have hmeans := (h.models.node_le hnode).trans (Program.simplifies_of_redex? h.models.toValid hredex)
    obtain ⟨hname, hlt⟩ := Program.within_of_redex? h.models.wellFormed
      (h.models.wellFormed.child_lt hnode) hredex
    rw [ends_bind, ends_add, ends_bind, ends_modifyNotes]
    -- a law that needs a node adds it, and the new node is a form of itself
    have hmodels := h.models.add Simplifies.refl hname hlt
    have hrw := Reading.Rewrites.add r hname
    have hnew : r.program.size < (r.add residual).program.size := by
      rw [Reading.program_add, Program.size_add]
      exact Nat.lt_succ_self _
    have hform : IsForm (r.add residual) id r.program.size := by
      refine ⟨Nat.lt_trans hid hnew, hnew, ?_⟩
      rw [Reading.term_add_of_lt hid, Reading.term_add_size]
      exact hmeans
    have hsound := (h.keeps hrw.toKeeps hmodels).record ⟨hnew, hnew, .refl _⟩
    exact ⟨r.add residual, _, rfl, hsound.recordLaw law, hrw, hform⟩

/-- Simplification of a term succeeds and answers a form of it. By induction on the depth: what a node says now is
no deeper than the term that its identifier stands for. -/
theorem ends_visit {depth : Nat} (h : Sound defs r s) (hid : id < r.program.size)
    (hd : (r.term id).height < depth) :
    Ends (visit depth id) (r.program, s)
      (fun form t => ∃ r' s', t = (r'.program, s') ∧ Sound defs r' s' ∧ r.Rewrites r' ∧ IsForm r' id form)
      fun _ _ => False := by
  induction depth generalizing id r s with
  | zero => exact absurd hd (Nat.not_lt_zero _)
  | succ depth ih =>
    unfold visit
    rw [ends_bind, ends_notes]
    split
    · rename_i form hform
      exact ⟨r, s, rfl, h, .refl r, h.isForm hform⟩
    · rw [ends_bind, ends_node]
      refine ⟨fun node hnode => ?_, fun hn => absurd hid (Nat.not_lt_of_le (Program.node?_eq_none_iff.1 hn))⟩
      have hchild (c : ProcessId) (hc : c ∈ node.children) : (r.term c).height < depth := by
        have hlt := Node.height_lt_of_mem_children (m := r.term) hc
        have hle := (h.models.node_le hnode).height_le
        omega
      rw [ends_bind]
      refine (Ends.traverse (w := fun k : Reading × Simplification => (k.1.program, k.2))
        (I := fun k => Sound defs k.1 k.2 ∧ r.Rewrites k.1) (R := fun k => IsForm k.1)
        (fun c hc k hk => ?_) (k := (r, s)) ⟨h, .refl r⟩).mono ?_ fun _ _ h => h
      · have hlt := h.models.wellFormed.child_lt hnode c hc
        have hd' : (k.1.term c).height < depth := by
          rw [hk.2.term_eq hlt]
          exact hchild c hc
        refine (ih hk.1 (Nat.lt_of_lt_of_le hlt hk.2.size_le) hd').mono ?_ fun _ _ h => h
        rintro form _ ⟨r', s', rfl, hs', hrw, hform⟩
        exact ⟨(r', s'), rfl, ⟨hs', hk.2.trans hrw⟩, hform, fun _ _ hf => hf.keeps hrw.toKeeps⟩
      · rintro node' _ ⟨⟨r₁, s₁⟩, rfl, ⟨hs₁, hrw₁⟩, hrel, -⟩
        rw [ends_bind, ends_write, ends_bind]
        -- the node as it was found is written over the forms of its subterms
        obtain ⟨hmodels, hrw⟩ := h.models.rewrite hs₁.models hrw₁ Simplifies.precongruence hnode hrel
          fun c d hcd => ⟨hcd.form_lt, hcd.simplifies⟩
        have hnode' : (r₁.write id node').program.node? id = some node' := by
          rw [Reading.program_write, Program.node?_write_of_lt (Nat.lt_of_lt_of_le hid hrw₁.size_le)]
          exact if_pos rfl
        refine (ends_contract (hs₁.keeps (.write r₁ id node') hmodels) hnode').mono ?_ fun _ _ h => h
        rintro form _ ⟨r₂, s₂, rfl, hs₂, hrw₂, hform⟩
        rw [ends_bind, ends_modifyNotes]
        exact ⟨r₂, _, rfl, hs₂.record hform, hrw.trans hrw₂, hform⟩

theorem ends_simplify (h : Sound defs r s) (hid : id < r.program.size) :
    Ends (simplify id) (r.program, s)
      (fun form t => ∃ r' s', t = (r'.program, s') ∧ Sound defs r' s' ∧ r.Rewrites r' ∧ IsForm r' id form)
      fun _ _ => False := by
  unfold simplify
  rw [ends_bind, ends_program]
  exact ends_visit h hid (Nat.lt_of_le_of_lt (h.models.height_le hid) (Nat.lt_succ_of_lt hid))

/-- Simplification of an identifier that is not in the program changes nothing. -/
theorem ends_simplify_of_le (h : Sound defs r s) (hid : r.program.size ≤ id) :
    Ends (simplify id) (r.program, s) (fun _ _ => False)
      fun e t => e = .missingProcess id ∧ t = (r.program, s) := by
  unfold simplify
  rw [ends_bind, ends_program]
  unfold Program.depthBound visit
  rw [ends_bind, ends_notes]
  split
  · rename_i form hform
    exact absurd (h.isForm hform).lt (Nat.not_lt_of_le hid)
  · rw [ends_bind, ends_node]
    refine ⟨fun node hnode => absurd (Program.lt_size_of_node? hnode) (Nat.not_lt_of_le hid), fun _ => ⟨rfl, rfl⟩⟩

theorem ends_simplifyNamed (h : Sound defs r s) (hid : id < r.program.size) :
    Ends (simplifyNamed id) (r.program, s)
      (fun _ t => ∃ r' s', t = (r'.program, s') ∧ Sound defs r' s' ∧ r.Preserves r') fun _ _ => False := by
  unfold simplifyNamed
  rw [ends_bind, ends_node]
  refine ⟨fun node hnode => ?_, fun hn => absurd hid (Nat.not_lt_of_le (Program.node?_eq_none_iff.1 hn))⟩
  split
  · rename_i name body
    rw [ends_bind]
    refine (ends_simplify h (h.models.wellFormed.body_lt hnode)).mono ?_ fun _ _ h => h
    rintro body' _ ⟨r', s', rfl, hs', hrw, hform⟩
    rw [ends_write]
    have hmodels := hs'.models.redirect Simplifies.precongruence (hrw.named_iff.2 hnode) hform.form_lt
      hform.simplifies
    have hkeeps := Reading.Preserves.write r' id (.named name (some body'))
    exact ⟨r'.write id (.named name (some body')), s', rfl, hs'.keeps hkeeps.toKeeps hmodels,
      hrw.toPreserves.trans hkeeps⟩
  · exact ⟨r, s, rfl, h, .refl r⟩

theorem ends_simplifyProgram (h : Sound defs r s) :
    Ends simplifyProgram (r.program, s)
      (fun _ t => ∃ r' s', t = (r'.program, s') ∧ Sound defs r' s' ∧ r.Preserves r') fun _ _ => False := by
  unfold simplifyProgram
  rw [ends_bind, ends_program]
  refine (Ends.forM (w := fun k : Reading × Simplification => (k.1.program, k.2))
    (I := fun k => Sound defs k.1 k.2 ∧ r.Preserves k.1) (P := fun _ _ => True)
    (fun id hid k hk => ?_) (k := (r, s)) ⟨h, .refl r⟩).mono ?_ fun _ _ h => h
  · have hlt := Nat.lt_of_lt_of_le (h.models.wellFormed.lt_of_mem_named hid) hk.2.size_le
    refine (ends_simplifyNamed hk.1 hlt).mono ?_ fun _ _ h => h
    rintro _ _ ⟨r', s', rfl, hs', hkeeps⟩
    exact ⟨(r', s'), rfl, ⟨hs', hk.2.trans hkeeps⟩, trivial, fun _ _ => trivial⟩
  · rintro _ _ ⟨⟨r', s'⟩, rfl, ⟨hs', hkeeps⟩, -⟩
    exact ⟨r', s', rfl, hs', hkeeps⟩

end Simplification

end ProcessCalculus
