import ProcessCalculus.Proofs.Program.Walks

/-!
# Visits of simplification

Simplification visits each identifier once. A visit is over in one step when those of the subterms are: the node is
written over their forms, at most one law is applied, and the form is noted. What is noted then stays as it is: a node
with a form is never written again, its subterms are forms of themselves, and the form of a node is a node to which no
law applies.

* `Simplification.VisitStep`: the end of one visit.
* `Simplification.Formed`: what holds of the notes and the nodes that were visited.
* `Simplification.Retains`: what was visited is left alone.
* `Simplification.VisitStep.formed`: no law applies to what a law leaves.
* `Simplification.ends_visit_steps`, `Simplification.Sound.ends_simplify_steps`: simplification visits what is below a
  process, and nothing else.
* `Simplification.Move`, `Simplification.Sound.ends_simplifyProgram_moves`: simplification of all definitions redirects
  names to forms between its visits.
-/

namespace ProcessCalculus

open Relation Term

namespace Program

variable {p q : Program} {node residual : Node ProcessId} {law : Law} {form : ProcessId}

theorem isNull_congr {c : ProcessId} (h : p.node? c = q.node? c) : p.isNull c = q.isNull c := by
  rw [isNull, isNull, h]

/-- Which law applies to a node depends on the nodes of its subterms only. -/
theorem redex?_congr (h : ∀ c ∈ node.children, p.node? c = q.node? c) : p.redex? node = q.redex? node := by
  have hnull (c : ProcessId) (hc : c ∈ node.children) : p.isNull c = q.isNull c := isNull_congr (h c hc)
  cases node with
  | sum l r => simp only [redex?, hnull l (by simp [Node.children]), hnull r (by simp [Node.children])]
  | parallel l r => simp only [redex?, hnull l (by simp [Node.children]), hnull r (by simp [Node.children])]
  | restrict body labels =>
    simp only [redex?, hnull body (by simp [Node.children]), h body (by simp [Node.children])]
  | rename body renames => simp only [redex?, hnull body (by simp [Node.children])]
  | _ => rfl

/-- A law that needs no node leaves one of the subterms. -/
theorem mem_children_of_redex? (h : p.redex? node = some (law, .process form)) : form ∈ node.children := by
  cases node <;> simp only [redex?] at h <;> grind [Node.children]

/-- A law that needs a node merges two restrictions. -/
theorem eq_restrict_of_redex? (h : p.redex? node = some (law, .node residual)) :
    ∃ body labels inner innerLabels, node = .restrict body labels ∧ labels.isEmpty = false ∧
      p.node? body = some (.restrict inner innerLabels) ∧ law = .restrictionMerge ∧
      residual = .restrict inner (innerLabels ∪ labels) := by
  cases node with
  | restrict body labels =>
    simp only [redex?] at h
    split at h
    · cases h
    · split at h
      · cases h
      · rename_i hempty
        split at h
        · rename_i inner innerLabels hbody
          cases h
          exact ⟨body, labels, inner, innerLabels, rfl, by simpa using hempty, hbody, rfl, rfl⟩
        · cases h
  | _ => simp only [redex?] at h; grind

/-- No law applies to the restriction that two of them are merged into, if none applies to the inner one. -/
theorem redex?_merged {inner : ProcessId} {innerLabels labels : LabelSet}
    (h : p.redex? (.restrict inner innerLabels) = none) (hlabels : labels.isEmpty = false) :
    p.redex? (.restrict inner (innerLabels ∪ labels)) = none := by
  have hunion : (innerLabels ∪ labels).isEmpty = false := by
    rw [Bool.eq_false_iff, ne_eq, LabelSet.isEmpty_iff] at hlabels ⊢
    exact fun hnone => hlabels fun label hlabel => hnone label (LabelSet.mem_union.2 (.inr hlabel))
  simp only [redex?] at h ⊢
  split at h
  · cases h
  · split at h
    · cases h
    · rename_i hnull _
      rw [if_neg hnull, if_neg (by simp [hunion])]
      split at h
      · cases h
      · rfl

end Program

namespace Simplification

/-- An identifier without a form, and its node over the forms of its subterms. -/
structure Ready (p : Program) (s : Simplification) (id : ProcessId) (node : Node ProcessId) : Prop where
  new : s.form? id = none
  exists_related : ∃ old, p.node? id = some old ∧ old.Related (fun c f => s.form? c = some f) node

/-- The visit of an identifier comes to its end: no law applies, or a law leaves a subterm, or it leaves a new node. -/
inductive VisitStep (id : ProcessId) : Program × Simplification → Program × Simplification → Prop
  | stable {p : Program} {s : Simplification} {node : Node ProcessId} (h : Ready p s id node)
      (hlaw : (p.write id node).redex? node = none) :
      VisitStep id (p, s) (p.write id node, s.record id id)
  | reduced {p : Program} {s : Simplification} {node : Node ProcessId} {law : Law} {form : ProcessId}
      (h : Ready p s id node) (hlaw : (p.write id node).redex? node = some (law, .process form)) :
      VisitStep id (p, s) (p.write id node, (s.recordLaw law).record id form)
  | merged {p : Program} {s : Simplification} {node residual : Node ProcessId} {law : Law} (h : Ready p s id node)
      (hlaw : (p.write id node).redex? node = some (law, .node residual)) :
      VisitStep id (p, s)
        (((p.write id node).add residual).2, ((s.record p.size p.size).recordLaw law).record id p.size)

/-- Visits of identifiers of some kind, one after the other. -/
def VisitSteps (P : ProcessId → Prop) : Program × Simplification → Program × Simplification → Prop :=
  ReflTransGen fun t t' => ∃ id, P id ∧ VisitStep id t t'

/-- A form is a form of itself. The subterms of an identifier that has a form are such forms, and no law applies to its
node exactly if it is one. -/
structure FormedAt (t : Program × Simplification) (id form : ProcessId) : Prop where
  form_form : t.2.form? form = some form
  exists_node : ∃ node, t.1.node? id = some node ∧ (∀ c ∈ node.children, t.2.form? c = some c) ∧
    (t.1.redex? node = none ↔ form = id)

/-- What holds of the notes and the nodes that were visited. -/
def Formed (t : Program × Simplification) : Prop :=
  ∀ ⦃id form⦄, t.2.form? id = some form → FormedAt t id form

/-- Forms stay, and the nodes of identifiers that have one. -/
structure Retains (t t' : Program × Simplification) : Prop where
  size_le : t.1.size ≤ t'.1.size
  form?_eq {id form : ProcessId} : t.2.form? id = some form → t'.2.form? id = some form
  node?_eq {id form : ProcessId} : t.2.form? id = some form → t'.1.node? id = t.1.node? id

/-- Identifiers that were not visited have the nodes that they had in another program. -/
def Since (p : Program) (t : Program × Simplification) : Prop :=
  ∀ id, t.2.form? id = none → t.1.node? id = p.node? id

variable {p q : Program} {s : Simplification} {t t' t'' : Program × Simplification} {id form x f : ProcessId}
  {node : Node ProcessId} {P P' : ProcessId → Prop}

@[simp] theorem form?_recordLaw (law : Law) (id : ProcessId) : (s.recordLaw law).form? id = s.form? id := rfl

namespace Retains

theorem refl (t : Program × Simplification) : Retains t t :=
  ⟨Nat.le_refl _, fun h => h, fun _ => rfl⟩

theorem trans (h : Retains t t') (h' : Retains t' t'') : Retains t t'' where
  size_le := Nat.le_trans h.size_le h'.size_le
  form?_eq hf := h'.form?_eq (h.form?_eq hf)
  node?_eq hf := (h'.node?_eq (h.form?_eq hf)).trans (h.node?_eq hf)

end Retains

namespace Formed

theorem empty (p : Program) : Formed (p, ∅) := by
  intro id form h
  rw [form?_empty] at h
  cases h

theorem lt (h : Formed t) (hform : t.2.form? id = some form) : id < t.1.size := by
  obtain ⟨node, hnode, -⟩ := (h hform).exists_node
  exact Program.lt_size_of_node? hnode

/-- Nothing changes for what has a form already. -/
theorem of_retains (h : Formed t) (hr : Retains t t')
    (hnew : ∀ id form, t.2.form? id = none → t'.2.form? id = some form → FormedAt t' id form) : Formed t' := by
  intro id form hform
  cases hid : t.2.form? id with
  | none => exact hnew id form hid hform
  | some f =>
    obtain rfl : f = form := Option.some.inj ((hr.form?_eq hid).symm.trans hform)
    obtain ⟨hf, node, hnode, hchildren, hlaw⟩ := h hid
    refine ⟨hr.form?_eq hf, node, (hr.node?_eq hid).trans hnode, fun c hc => hr.form?_eq (hchildren c hc), ?_⟩
    rw [Program.redex?_congr fun c hc => hr.node?_eq (hchildren c hc), hlaw]

/-- Nodes may be added. -/
theorem of_node?_eq (h : Formed (p, s)) (hsize : p.size ≤ q.size) (hq : ∀ id < p.size, q.node? id = p.node? id) :
    Formed (q, s) := by
  have hr : Retains (p, s) (q, s) := ⟨hsize, fun hf => hf, fun hf => hq _ (h.lt hf)⟩
  exact h.of_retains hr fun id form hid hform => nomatch hid.symm.trans hform

/-- The forms of the subterms of an identifier are forms of themselves. -/
theorem form?_of_ready (h : Formed (p, s)) (hready : Ready p s id node) {c : ProcessId} (hc : c ∈ node.children) :
    s.form? c = some c := by
  obtain ⟨old, -, hrel⟩ := hready.exists_related
  obtain ⟨d, -, hd⟩ := hrel.exists_of_mem_children hc
  exact (h hd).form_form

/-- What is below a form is a form of itself. -/
theorem form?_of_below (h : Formed t) (hform : t.2.form? id = some id) (hx : ReflTransGen t.1.Child id x) :
    t.2.form? x = some x := by
  induction hx with
  | refl => exact hform
  | tail _ hchild ih =>
    obtain ⟨node, hnode, hc⟩ := hchild
    obtain ⟨-, node', hnode', hchildren, -⟩ := h ih
    rw [hnode] at hnode'
    cases hnode'
    exact hchildren _ hc

/-- What is below a form is left alone, so the form denotes what it did. -/
theorem denotes (h : Formed t) (hr : Retains t t') {u : Term} (hform : t.2.form? form = some form)
    (hd : t.1.Denotes form u) : t'.1.Denotes form u :=
  hd.of_below fun _ _ hx hnode => (hr.node?_eq (h.form?_of_below hform hx)).trans hnode

end Formed

namespace Ready

theorem lt (h : Ready p s id node) : id < p.size := by
  obtain ⟨old, hold, -⟩ := h.exists_related
  exact Program.lt_size_of_node? hold

theorem node?_write (h : Ready p s id node) (other : ProcessId) :
    (p.write id node).node? other = if id = other then some node else p.node? other :=
  Program.node?_write_of_lt h.lt node other

/-- The node that is written there concerns nothing that was visited. -/
theorem retains_write (h : Ready p s id node) : Retains (p, s) (p.write id node, s) where
  size_le := Nat.le_of_eq (Program.size_write p id node).symm
  form?_eq hf := hf
  node?_eq {x f} hf := by
    have hne : id ≠ x := by
      rintro rfl
      cases h.new.symm.trans hf
    exact (h.node?_write x).trans (if_neg hne)

theorem node?_written (h : Ready p s id node) : (p.write id node).node? id = some node :=
  (h.node?_write id).trans (if_pos rfl)

theorem node?_add (h : Ready p s id node) (residual : Node ProcessId) :
    ((p.write id node).add residual).2.node? id = some node := by
  rw [Program.node?_add, Program.size_write, if_neg (Nat.ne_of_lt h.lt), h.node?_written]

/-- The law that applies is the same when another node is added. -/
theorem redex?_add (h : Ready p s id node) (hformed : Formed (p, s)) (residual : Node ProcessId) :
    ((p.write id node).add residual).2.redex? node = (p.write id node).redex? node := by
  refine Program.redex?_congr fun c hc => ?_
  rw [Program.node?_add, Program.size_write, if_neg (Nat.ne_of_lt (hformed.lt (hformed.form?_of_ready h hc)))]

/-- What is visited already is another identifier. -/
theorem ne_of_form? (h : Ready p s id node) (hf : s.form? x = some f) : x ≠ id := by
  rintro rfl
  cases h.new.symm.trans hf

end Ready

/-- The subterm of a merged restriction was below a restriction to which no law applies, so it is neither inactive nor a
restriction, and no law applies to the merged restriction either. -/
theorem Formed.of_merged (hformed : Formed (p, s)) (h : Ready p s id node) {law : Law} {residual : Node ProcessId}
    (hlaw : (p.write id node).redex? node = some (law, .node residual)) :
    (∀ c ∈ residual.children, s.form? c = some c) ∧ p.redex? residual = none := by
  obtain ⟨body, labels, inner, innerLabels, rfl, hlabels, hbody, rfl, rfl⟩ := Program.eq_restrict_of_redex? hlaw
  -- the inner restriction was visited and is a form of itself
  have hbodyForm : s.form? body = some body := hformed.form?_of_ready h List.mem_cons_self
  obtain ⟨-, bodyNode, hbodyNode, hinner, hbodyLaw⟩ := hformed hbodyForm
  rw [h.node?_write, if_neg (Ne.symm (h.ne_of_form? hbodyForm)), hbodyNode] at hbody
  cases hbody
  refine ⟨fun c hc => ?_, Program.redex?_merged (hbodyLaw.2 rfl) hlabels⟩
  obtain rfl := List.mem_singleton.1 hc
  exact hinner c List.mem_cons_self

namespace VisitStep

/-- A visit concerns its own identifier and a new one at most. -/
theorem frame (h : VisitStep id t t') (hx : x ≠ id) (hnew : x ≠ t.1.size) :
    t'.1.node? x = t.1.node? x ∧ t'.2.form? x = t.2.form? x := by
  have hid := Ne.symm hx
  cases h with
  | stable h hlaw => simp [h.node?_write, form?_record, hid]
  | reduced h hlaw => simp [h.node?_write, form?_record, hid]
  | merged h hlaw => simp [Program.node?_add, h.node?_write, form?_record, hid, hnew, Ne.symm hnew]

theorem size_le (h : VisitStep id t t') : t.1.size ≤ t'.1.size := by
  cases h <;> simp

theorem exists_ready (h : VisitStep id t t') : ∃ node, Ready t.1 t.2 id node := by
  cases h <;> exact ⟨_, ‹_›⟩

theorem retains (h : VisitStep id t t') (hformed : Formed t) : Retains t t' := by
  obtain ⟨node, hready⟩ := h.exists_ready
  have hframe {x f : ProcessId} (hf : t.2.form? x = some f) :
      t'.1.node? x = t.1.node? x ∧ t'.2.form? x = t.2.form? x :=
    h.frame (hready.ne_of_form? hf) (Nat.ne_of_lt (hformed.lt hf))
  exact ⟨h.size_le, fun hf => (hframe hf).2.trans hf, fun hf => (hframe hf).1⟩

/-- What is visited has a form afterwards. -/
theorem exists_form? (h : VisitStep id t t') : ∃ form, t'.2.form? id = some form := by
  cases h <;> exact ⟨_, (form?_record id).trans (if_pos rfl)⟩

theorem since (h : VisitStep id t t') (hs : Since p t) : Since p t' := by
  intro x hx
  obtain ⟨form, hform⟩ := h.exists_form?
  have hid : x ≠ id := by
    rintro rfl
    cases hx.symm.trans hform
  cases h with
  | stable h hlaw =>
    rw [form?_record, if_neg (Ne.symm hid)] at hx
    exact (h.node?_write x).trans ((if_neg (Ne.symm hid)).trans (hs x hx))
  | reduced h hlaw =>
    rw [form?_record, if_neg (Ne.symm hid)] at hx
    exact (h.node?_write x).trans ((if_neg (Ne.symm hid)).trans (hs x hx))
  | @merged p s _ _ _ h hlaw =>
    rw [form?_record, if_neg (Ne.symm hid), form?_recordLaw, form?_record] at hx
    split at hx
    · cases hx
    · rename_i hnew
      rw [Program.node?_add, Program.size_write, if_neg (Ne.symm hnew), h.node?_write, if_neg (Ne.symm hid)]
      exact hs x hx

/-- The step by which notes stay right. -/
theorem formed (h : VisitStep id t t') (hformed : Formed t) : Formed t' := by
  have hr := h.retains hformed
  refine hformed.of_retains hr fun x form hx hform => ?_
  cases h with
  | @stable p s node h hlaw =>
    rw [form?_record] at hform
    split at hform
    · rename_i hid
      cases hform
      subst hid
      refine ⟨by rw [form?_record, if_pos rfl], node, h.node?_written, fun c hc => ?_, ?_⟩
      · exact hr.form?_eq (hformed.form?_of_ready h hc)
      · simp [hlaw]
    · cases hx.symm.trans hform
  | @reduced p s node law form' h hlaw =>
    rw [form?_record] at hform
    split at hform
    · rename_i hid
      cases hform
      subst hid
      have hchild := hformed.form?_of_ready h (Program.mem_children_of_redex? hlaw)
      refine ⟨hr.form?_eq hchild, node, h.node?_written, fun c hc => ?_, ?_⟩
      · exact hr.form?_eq (hformed.form?_of_ready h hc)
      · simp [hlaw, h.ne_of_form? hchild]
    · cases hx.symm.trans hform
  | @merged p s node residual law h hlaw =>
    have hne : p.size ≠ id := Nat.ne_of_gt h.lt
    have hnew : (((s.record p.size p.size).recordLaw law).record id p.size).form? p.size = some p.size := by
      rw [form?_record, if_neg (Ne.symm hne), form?_recordLaw, form?_record, if_pos rfl]
    rw [form?_record] at hform
    split at hform
    · rename_i hid
      cases hform
      subst hid
      refine ⟨hnew, node, h.node?_add _, fun c hc => ?_, ?_⟩
      · exact hr.form?_eq (hformed.form?_of_ready h hc)
      · rw [h.redex?_add hformed, hlaw]
        simp [hne]
    · rw [form?_recordLaw, form?_record] at hform
      split at hform
      · rename_i hid
        cases hform
        subst hid
        obtain ⟨hchildren, hnone⟩ := hformed.of_merged h hlaw
        refine ⟨hnew, residual, by rw [Program.node?_add, Program.size_write, if_pos rfl], fun c hc => ?_, ?_⟩
        · exact hr.form?_eq (hchildren c hc)
        · rw [Program.redex?_congr fun c hc => hr.node?_eq (hchildren c hc)]
          exact iff_of_true hnone rfl
      · cases hx.symm.trans hform

end VisitStep

namespace VisitSteps

theorem mono (h : VisitSteps P t t') (hP : ∀ id, P id → P' id) : VisitSteps P' t t' :=
  ReflTransGen.mono (fun _ _ ⟨id, hid, hstep⟩ => ⟨id, hP id hid, hstep⟩) _ _ h

theorem formed_retains (h : VisitSteps P t t') (hformed : Formed t) : Formed t' ∧ Retains t t' := by
  induction h with
  | refl => exact ⟨hformed, .refl t⟩
  | tail _ hstep ih =>
    obtain ⟨id, -, hstep⟩ := hstep
    exact ⟨hstep.formed ih.1, ih.2.trans (hstep.retains ih.1)⟩

theorem formed (h : VisitSteps P t t') (hformed : Formed t) : Formed t' :=
  (h.formed_retains hformed).1

theorem retains (h : VisitSteps P t t') (hformed : Formed t) : Retains t t' :=
  (h.formed_retains hformed).2

theorem since (h : VisitSteps P t t') (hs : Since p t) : Since p t' := by
  induction h with
  | refl => exact hs
  | tail _ hstep ih =>
    obtain ⟨id, -, hstep⟩ := hstep
    exact hstep.since ih

/-- Visits of others change nothing for an identifier of the program. -/
theorem frame (h : VisitSteps P t t') (hx : ¬ P x) (hlt : x < t.1.size) :
    t'.1.node? x = t.1.node? x ∧ t'.2.form? x = t.2.form? x ∧ t.1.size ≤ t'.1.size := by
  induction h with
  | refl => exact ⟨rfl, rfl, Nat.le_refl _⟩
  | tail _ hstep ih =>
    obtain ⟨id, hid, hstep⟩ := hstep
    obtain ⟨hnode, hform, hsize⟩ := ih
    have hne : x ≠ id := by
      rintro rfl
      exact hx hid
    obtain ⟨hnode', hform'⟩ := hstep.frame hne (Nat.ne_of_lt (Nat.lt_of_lt_of_le hlt hsize))
    exact ⟨hnode'.trans hnode, hform'.trans hform, Nat.le_trans hsize hstep.size_le⟩

end VisitSteps

/-! ### Simplification visits what is below a process -/

/-- Where the subterms were visited, the law that applies ends the visit. -/
private theorem ends_contract_step (hready : Ready p s id node) :
    Ends (do let form ← contract id node; Pass.modifyNotes (record id form); return form) (p.write id node, s)
      (fun form t => VisitStep id (p, s) t ∧ t.2.form? id = some form) fun _ _ => True := by
  unfold contract
  rw [ends_bind, ends_bind, ends_program]
  split
  · rename_i hlaw
    rw [ends_pure, ends_bind, ends_modifyNotes, ends_pure]
    exact ⟨.stable hready hlaw, by rw [form?_record, if_pos rfl]⟩
  · rename_i law form hlaw
    rw [ends_bind, ends_modifyNotes, ends_pure, ends_bind, ends_modifyNotes, ends_pure]
    exact ⟨.reduced hready hlaw, by rw [form?_record, if_pos rfl]⟩
  · rename_i law residual hlaw
    rw [ends_bind, ends_add, ends_bind, ends_modifyNotes, ends_pure, ends_bind, ends_modifyNotes, ends_pure,
      Program.size_write]
    exact ⟨.merged hready hlaw, by rw [form?_record, if_pos rfl]⟩

/-- A visit where no process is below itself in the program as it was before. By induction on the depth: the visits of
subterms are over before, and they leave the identifier alone because it is not below them. -/
theorem ends_visit_steps {depth : Nat} (hacyclic : ∀ x, ¬ TransGen p.Child x x) (hformed : Formed t)
    (hsince : Since p t) :
    Ends (visit depth id) t
      (fun form t' => VisitSteps (ReflTransGen p.Child id) t t' ∧ t'.2.form? id = some form) fun _ _ => True := by
  induction depth generalizing id t with
  | zero => exact trivial
  | succ depth ih =>
    obtain ⟨q, s⟩ := t
    unfold visit
    rw [ends_bind, ends_notes]
    split
    · rename_i form hform
      exact ⟨.refl, hform⟩
    · rename_i hnew
      have hnew : s.form? id = none := Option.eq_none_iff_forall_ne_some.2 hnew
      rw [ends_bind, ends_node]
      refine ⟨fun node hnode => ?_, fun _ => trivial⟩
      have hchild (c : ProcessId) (hc : c ∈ node.children) : p.Child id c := ⟨node, (hsince id hnew) ▸ hnode, hc⟩
      rw [ends_bind]
      refine (Ends.traverse (w := fun k : Program × Simplification => k)
        (I := fun k => VisitSteps (TransGen p.Child id) (q, s) k) (R := fun k c form => k.2.form? c = some form)
        (fun c hc k hk => ?_) .refl).mono ?_ fun _ _ h => h
      · refine (ih (hk.formed hformed) (hk.since hsince)).mono ?_ fun _ _ h => h
        rintro form k' ⟨hsteps, hform⟩
        refine ⟨k', rfl, hk.trans (hsteps.mono fun x hx => ?_), hform, fun y f hf => ?_⟩
        · exact .trans_left (.single (hchild c hc)) hx
        · exact (hsteps.retains (hk.formed hformed)).form?_eq hf
      · rintro node' _ ⟨⟨q', s'⟩, rfl, hsteps, hrel, -⟩
        obtain ⟨hnode', hform', -⟩ := hsteps.frame (hacyclic id) (Program.lt_size_of_node? hnode)
        rw [ends_bind, ends_write]
        refine (ends_contract_step ⟨hform'.trans hnew, node, hnode'.trans hnode, hrel⟩).mono ?_ fun _ _ h => h
        rintro form t ⟨hstep, hform⟩
        exact ⟨(hsteps.mono fun x hx => hx.to_reflTransGen).tail ⟨id, .refl, hstep⟩, hform⟩

variable {defs : String → Term → Prop} {r : Reading}

/-- With fresh notes, a program that has a reading is read as what it denotes. -/
theorem Sound.exists_of_valid (h : r.Valid Simplifies) :
    ∃ m, (∀ id, id < r.program.size → r.program.Denotes id (m id)) ∧ Sound r.program.Defines ⟨r.program, m⟩ ∅ := by
  obtain ⟨m, hm, hexact⟩ := h.exists_exact_of_le Simplifies.precongruence
  exact ⟨m, hm, .of_models (.of_denotes (hexact Simplifies .refl) fun id hid => ⟨m id, hm id hid, .refl _⟩)⟩

/-- Simplification succeeds and keeps the invariant. It visits what is below a process in a program that had the nodes
of all identifiers which are not visited yet, and in which no process was below itself. -/
theorem Sound.ends_simplify_steps (h : Sound defs r s) (hformed : Formed (r.program, s))
    (hacyclic : ∀ x, ¬ TransGen p.Child x x) (hsince : Since p (r.program, s)) (hid : id < r.program.size) :
    Ends (simplify id) (r.program, s)
      (fun form t => (∃ r' s', t = (r'.program, s') ∧ Sound defs r' s' ∧ r.Rewrites r' ∧ IsForm r' id form) ∧
        VisitSteps (ReflTransGen p.Child id) (r.program, s) t ∧ t.2.form? id = some form)
      fun _ _ => False := by
  have hsteps : Ends (simplify id) (r.program, s)
      (fun form t => VisitSteps (ReflTransGen p.Child id) (r.program, s) t ∧ t.2.form? id = some form)
      fun _ _ => True := by
    unfold simplify
    rw [ends_bind, ends_program]
    exact ends_visit_steps hacyclic hformed hsince
  exact ((ends_simplify h hid).and hsteps).mono (fun _ _ h => h) fun _ _ h => h.1

/-- What is below a process now is visited. -/
theorem Sound.ends_simplify_below (h : Sound defs r s) (hformed : Formed (r.program, s)) (hid : id < r.program.size) :
    Ends (simplify id) (r.program, s)
      (fun form t => (∃ r' s', t = (r'.program, s') ∧ Sound defs r' s' ∧ r.Rewrites r' ∧ IsForm r' id form) ∧
        VisitSteps (ReflTransGen r.program.Child id) (r.program, s) t ∧ t.2.form? id = some form)
      fun _ _ => False :=
  h.ends_simplify_steps hformed (h.models.not_transGen_child Simplifies.precongruence) (fun _ _ => rfl) hid

/-! ### All definitions -/

/-- No law depends on the definition of a name. -/
theorem redex?_redirect {name : String} {body body' : Option ProcessId} (hid : p.node? id = some (.named name body))
    (node : Node ProcessId) : (p.write id (.named name body')).redex? node = p.redex? node := by
  have hwrite (c : ProcessId) : (p.write id (.named name body')).node? c =
      if id = c then some (.named name body') else p.node? c :=
    Program.node?_write_of_lt (Program.lt_size_of_node? hid) _ c
  have hnull (c : ProcessId) : (p.write id (.named name body')).isNull c = p.isNull c := by
    rw [Program.isNull, Program.isNull, hwrite]
    split
    · rename_i hc
      rw [← hc, hid]
      rfl
    · rfl
  cases node with
  | restrict c labels =>
    simp only [Program.redex?, hnull, hwrite]
    by_cases hc : id = c
    · rw [if_pos hc, ← hc, hid]
    · rw [if_neg hc]
  | _ => simp only [Program.redex?, hnull]

/-- A definition may be redirected. -/
theorem Formed.redirect (h : Formed (p, s)) {name : String} {body body' : Option ProcessId}
    (hid : p.node? id = some (.named name body)) : Formed (p.write id (.named name body'), s) := by
  intro x form hform
  obtain ⟨hf, node, hnode, hchildren, hlaw⟩ := h hform
  have hlt := Program.lt_size_of_node? hid
  by_cases hx : id = x
  · subst hx
    obtain rfl : node = .named name body := Option.some.inj (hnode.symm.trans hid)
    exact ⟨hf, .named name body', (Program.node?_write_of_lt hlt _ id).trans (if_pos rfl),
      fun c hc => absurd hc List.not_mem_nil, hlaw⟩
  · refine ⟨hf, node, (Program.node?_write_of_lt hlt _ x).trans ((if_neg hx).trans hnode), hchildren, ?_⟩
    exact (redex?_redirect hid node).symm ▸ hlaw

/-- What simplification does to a program and its notes: a visit comes to its end, or a name is redirected from its
definition to the form of that. -/
inductive Move : Program × Simplification → Program × Simplification → Prop
  | visit {id : ProcessId} {t t' : Program × Simplification} (h : VisitStep id t t') : Move t t'
  | redirect {p : Program} {s : Simplification} {id body form : ProcessId} {name : String}
      (hnode : p.node? id = some (.named name (some body))) (hform : s.form? body = some form) :
      Move (p, s) (p.write id (.named name (some form)), s)

theorem Move.formed (h : Move t t') (hformed : Formed t) : Formed t' := by
  cases h with
  | visit hstep => exact hstep.formed hformed
  | redirect hnode hform => exact hformed.redirect hnode

theorem Formed.moves (hformed : Formed t) (h : ReflTransGen Move t t') : Formed t' := by
  induction h with
  | refl => exact hformed
  | tail _ hmove ih => exact hmove.formed ih

theorem VisitSteps.moves (h : VisitSteps P t t') : ReflTransGen Move t t' :=
  ReflTransGen.mono (fun _ _ ⟨_, _, hstep⟩ => .visit hstep) _ _ h

theorem Sound.ends_simplifyNamed_moves (h : Sound defs r s) (hformed : Formed (r.program, s))
    (hid : id < r.program.size) :
    Ends (simplifyNamed id) (r.program, s)
      (fun _ t => ∃ r' s', t = (r'.program, s') ∧ Sound defs r' s' ∧ r.Preserves r' ∧
        ReflTransGen Move (r.program, s) t) fun _ _ => False := by
  have hends : Ends (simplifyNamed id) (r.program, s) (fun _ t => ReflTransGen Move (r.program, s) t)
      fun _ _ => True := by
    unfold simplifyNamed
    rw [ends_bind, ends_node]
    refine ⟨fun node hnode => ?_, fun _ => trivial⟩
    split
    · rename_i name body
      rw [ends_bind]
      refine (h.ends_simplify_below hformed (h.models.wellFormed.body_lt hnode)).mono ?_ fun _ _ _ => trivial
      rintro form _ ⟨⟨r', s', rfl, -, hrw, -⟩, hsteps, hform⟩
      rw [ends_write]
      exact hsteps.moves.tail (.redirect (hrw.named_iff.2 hnode) hform)
    · exact .refl
  refine ((ends_simplifyNamed h hid).and hends).mono ?_ fun _ _ h => h.1
  rintro _ _ ⟨⟨r', s', rfl, hs', hkeeps⟩, hmoves⟩
  exact ⟨r', s', rfl, hs', hkeeps, hmoves⟩

theorem Sound.ends_simplifyProgram_moves (h : Sound defs r s) (hformed : Formed (r.program, s)) :
    Ends simplifyProgram (r.program, s)
      (fun _ t => ∃ r' s', t = (r'.program, s') ∧ Sound defs r' s' ∧ r.Preserves r' ∧
        ReflTransGen Move (r.program, s) t) fun _ _ => False := by
  unfold simplifyProgram
  rw [ends_bind, ends_program]
  refine (Ends.forM (w := fun k : Reading × Simplification => (k.1.program, k.2))
    (I := fun k => Sound defs k.1 k.2 ∧ r.Preserves k.1 ∧ ReflTransGen Move (r.program, s) (k.1.program, k.2))
    (P := fun _ _ => True) (fun id hid k hk => ?_) (k := (r, s)) ⟨h, .refl r, .refl⟩).mono ?_ fun _ _ h => h
  · obtain ⟨hs, hp, hmoves⟩ := hk
    have hlt := Nat.lt_of_lt_of_le (h.models.wellFormed.lt_of_mem_named hid) hp.size_le
    refine (hs.ends_simplifyNamed_moves (hformed.moves hmoves) hlt).mono ?_ fun _ _ h => h
    rintro _ _ ⟨r', s', rfl, hs', hkeeps, hmoves'⟩
    exact ⟨(r', s'), rfl, ⟨hs', hp.trans hkeeps, hmoves.trans hmoves'⟩, trivial, fun _ _ => trivial⟩
  · rintro _ _ ⟨⟨r', s'⟩, rfl, ⟨hs', hkeeps, hmoves⟩, -⟩
    exact ⟨r', s', rfl, hs', hkeeps, hmoves⟩

end Simplification

end ProcessCalculus
