import ProcessCalculus.Proofs.Simplification.Visits

/-!
# Normal forms

To a simplified term no law applies any more, at any depth. Each node was looked at once, but then its subterms were
forms already, and what a law leaves is a form as well. A term in normal form is found to be one: simplification answers
with the term itself and changes nothing.

* `Program.Reducible`: the left-hand sides of the laws.
* `Program.redex?_eq_none_iff`: the search for a law misses none of them.
* `Program.NormalForm`: no law applies at any depth.
* `Simplification.Formed.normalForm`: forms are normal forms.
* `Simplification.simplify_normalForm`: simplification answers with normal forms and leaves them as they are.
-/

namespace ProcessCalculus

open Relation Term

namespace Node

/-- Nodes over the same subterms are the same. -/
theorem Related.eq {α : Type} {n n' : Node α} (h : n.Related (fun c d => d = c) n') : n' = n := by
  cases h <;> simp_all

end Node

namespace Program

variable {p q : Program} {node : Node ProcessId} {id x : ProcessId}

/-- A node of which the left-hand side of some law is true. Two operands of a sum are the same term if they are the same
process. -/
inductive Reducible (p : Program) : Node ProcessId → Prop
  | sumNullLeft {l r : ProcessId} (h : p.node? l = some .null) : Reducible p (.sum l r)
  | sumNullRight {l r : ProcessId} (h : p.node? r = some .null) : Reducible p (.sum l r)
  | sumSame (l : ProcessId) : Reducible p (.sum l l)
  | parallelNullLeft {l r : ProcessId} (h : p.node? l = some .null) : Reducible p (.parallel l r)
  | parallelNullRight {l r : ProcessId} (h : p.node? r = some .null) : Reducible p (.parallel l r)
  | restrictNull {body : ProcessId} {labels : LabelSet} (h : p.node? body = some .null) :
      Reducible p (.restrict body labels)
  | restrictEmpty {body : ProcessId} {labels : LabelSet} (h : ∀ label, label ∉ labels) :
      Reducible p (.restrict body labels)
  | restrictTwice {body inner : ProcessId} {labels innerLabels : LabelSet}
      (h : p.node? body = some (.restrict inner innerLabels)) : Reducible p (.restrict body labels)
  | renameNull {body : ProcessId} {renames : Renaming} (h : p.node? body = some .null) :
      Reducible p (.rename body renames)

/-- No law applies to the node of a process, nor to any node below it. -/
def NormalForm (p : Program) (id : ProcessId) : Prop :=
  ∀ x, ReflTransGen p.Child id x → ∀ node, p.node? x = some node → ¬ p.Reducible node

/-- The first law is found, if any applies. -/
theorem Reducible.redex?_ne_none (h : p.Reducible node) : p.redex? node ≠ none := by
  cases h with
  | sumNullLeft h | parallelNullLeft h | restrictNull h | renameNull h => simp [redex?, isNull_iff.2 h]
  | sumNullRight h | parallelNullRight h =>
    simp only [redex?, isNull_iff.2 h]
    split <;> simp
  | sumSame l =>
    simp only [redex?]
    split <;> simp
  | restrictEmpty h =>
    simp only [redex?, LabelSet.isEmpty_iff.2 h]
    split <;> simp
  | restrictTwice h =>
    simp only [redex?, h]
    split <;> [simp; split <;> simp]

/-- No law is found exactly where none applies. -/
theorem redex?_eq_none_iff : p.redex? node = none ↔ ¬ p.Reducible node := by
  refine ⟨fun hnone h => h.redex?_ne_none hnone, fun h => ?_⟩
  have hnull {c : ProcessId} (hc : p.isNull c = true) : p.node? c = some .null := isNull_iff.1 hc
  cases node with
  | sum l r =>
    rw [redex?, if_neg fun hl => h (.sumNullLeft (hnull hl)), if_neg fun hr => h (.sumNullRight (hnull hr)), if_neg]
    rintro rfl
    exact h (.sumSame l)
  | parallel l r =>
    rw [redex?, if_neg fun hl => h (.parallelNullLeft (hnull hl)),
      if_neg fun hr => h (.parallelNullRight (hnull hr))]
  | restrict body labels =>
    rw [redex?, if_neg fun hbody => h (.restrictNull (hnull hbody)),
      if_neg fun hempty => h (.restrictEmpty (LabelSet.isEmpty_iff.1 hempty))]
    split
    · rename_i hbody
      exact absurd (.restrictTwice hbody) h
    · rfl
  | rename body renames => rw [redex?, if_neg fun hbody => h (.renameNull (hnull hbody))]
  | _ => rfl

end Program

namespace Simplification

variable {p q : Program} {s : Simplification} {t : Program × Simplification} {id form x : ProcessId}

/-- No law applies to what is below a form. -/
theorem Formed.normalForm (h : Formed t) (hform : t.2.form? id = some form) : t.1.NormalForm form := by
  intro x hx node hnode
  obtain ⟨-, node', hnode', -, hlaw⟩ := h (h.form?_of_below (h hform).form_form hx)
  rw [hnode] at hnode'
  cases hnode'
  exact Program.redex?_eq_none_iff.1 (hlaw.2 rfl)

/-- Nothing happens where no law applies. -/
structure Idle (p : Program) (t : Program × Simplification) : Prop where
  program_eq : t.1 = p
  applied_eq : t.2.applied = []
  form_eq {id form : ProcessId} : t.2.form? id = some form → form = id

/-- A visit of a node in normal form only notes that it is one. -/
theorem VisitStep.idle {t' : Program × Simplification} (h : VisitStep x t t') (ht : Idle p t)
    (hnormal : ∀ node, p.node? x = some node → ¬ p.Reducible node) : Idle p t' := by
  have hready {s : Simplification} {node : Node ProcessId} (hs : Idle p (p, s)) (hready : Ready p s x node) :
      p.write x node = p ∧ p.redex? node = none := by
    obtain ⟨old, hold, hrel⟩ := hready.exists_related
    obtain rfl := (hrel.mono fun c _ d hd => hs.form_eq hd).eq
    exact ⟨Program.write_eq_self hold, Program.redex?_eq_none_iff.2 (hnormal _ hold)⟩
  have hp := ht.program_eq
  cases h with
  | @stable _ s node h hlaw =>
    cases hp
    refine ⟨(hready ht h).1, ht.applied_eq, fun {y f} hf => ?_⟩
    rw [form?_record] at hf
    split at hf
    · rename_i hy
      cases hf
      exact hy
    · exact ht.form_eq hf
  | reduced h hlaw =>
    cases hp
    obtain ⟨hsame, hnone⟩ := hready ht h
    rw [hsame, hnone] at hlaw
    cases hlaw
  | merged h hlaw =>
    cases hp
    obtain ⟨hsame, hnone⟩ := hready ht h
    rw [hsame, hnone] at hlaw
    cases hlaw

theorem VisitSteps.idle (h : VisitSteps (ReflTransGen p.Child id) (p, ∅) t) (hnormal : p.NormalForm id) :
    Idle p t := by
  induction h with
  | refl => exact ⟨rfl, rfl, fun hf => by simp at hf⟩
  | tail _ hstep ih =>
    obtain ⟨x, hx, hstep⟩ := hstep
    exact hstep.idle ih (hnormal x hx)

/-- A process in normal form is answered, whatever program it is in, as long as that has a reading. -/
theorem exists_simplify_normalForm {r : Reading} (hr : r.Valid Simplifies) (hid : id < r.program.size)
    (hnormal : r.program.NormalForm id) :
    ∃ s', simplify id (r.program, ∅) = .ok id (r.program, s') ∧ s'.applied = [] := by
  obtain ⟨m, -, hsound⟩ := Sound.exists_of_valid hr
  have hends := hsound.ends_simplify_below (.empty _) hid
  obtain ⟨form, ⟨q, s'⟩, hok, -, hsteps, hform⟩ := hends.exists_ok
  obtain ⟨hq, happlied, hforms⟩ := hsteps.idle hnormal
  obtain rfl := hforms hform
  cases hq
  exact ⟨s', hok, happlied⟩

/-- With fresh notes, what simplification of a term answers is in normal form. Simplified once more, with fresh notes
again, it is its own form, no law is applied, and the program stays as it is. So it is with any term of the program that
is in normal form to begin with. -/
theorem simplify_normalForm (hp : Built p) :
    (∀ root form t, simplify root (p, ∅) = .ok form t → t.1.NormalForm form ∧
      ∃ s', simplify form (t.1, ∅) = .ok form (t.1, s') ∧ s'.applied = []) ∧
    ∀ id, id < p.size → p.NormalForm id → ∃ s', simplify id (p, ∅) = .ok id (p, s') ∧ s'.applied = [] := by
  obtain ⟨r, rfl, hr⟩ := hp.exists_reading Simplifies.refl
  refine ⟨fun root form t hok => ?_, fun id hid hnormal => exists_simplify_normalForm hr hid hnormal⟩
  obtain ⟨m, -, hsound⟩ := Sound.exists_of_valid hr
  have hroot : root < r.program.size := by
    refine Nat.lt_of_not_le fun hle => ?_
    exact (ends_simplify_of_le hsound hle).of_ok hok
  obtain ⟨⟨r', s', rfl, hs', -, hform'⟩, hsteps, hform⟩ :=
    (hsound.ends_simplify_below (.empty _) hroot).of_ok hok
  have hnormal := (hsteps.formed (.empty _)).normalForm hform
  exact ⟨hnormal, exists_simplify_normalForm hs'.models.toValid hform'.form_lt hnormal⟩

/-- The term `((0 \ c + a.0) \ b) \ c`, with the identifier 5. -/
private def restrictedTwice : Program :=
  let p := (Program.add ∅ .null).2
  let p := (p.add (.act (.visible "a" .input) 0)).2
  let p := (p.add (.restrict 0 (.ofList ["c"]))).2
  let p := (p.add (.sum 2 1)).2
  let p := (p.add (.restrict 3 (.ofList ["b"]))).2
  (p.add (.restrict 4 (.ofList ["c"]))).2

private theorem normalForm_restrictedTwice : restrictedTwice.NormalForm 1 := by
  have hbelow : ∀ x, ReflTransGen restrictedTwice.Child 1 x → x = 1 ∨ x = 0 := by
    intro x hx
    induction hx with
    | refl => exact .inl rfl
    | tail _ hchild ih =>
      obtain ⟨node, hnode, hc⟩ := hchild
      rcases ih with rfl | rfl <;> cases hnode
      · exact .inr (List.mem_singleton.1 hc)
      · exact absurd hc List.not_mem_nil
  intro x hx node hnode
  rcases hbelow x hx with rfl | rfl <;> cases hnode <;> exact nofun

/-- The two restrictions of what is left of the sum are merged into a new node, which no law concerns any more. -/
theorem simplify_normalForm_restrictedTwice :
    Built restrictedTwice ∧ restrictedTwice.NormalForm 1 ∧
      (∃ s', simplify 1 (restrictedTwice, ∅) = .ok 1 (restrictedTwice, s') ∧ s'.applied = []) ∧
      ∃ t, simplify 5 (restrictedTwice, ∅) = .ok 6 t ∧
        t.2.applied = [.restrictionMerge, .sumIdentity, .nullRestriction] ∧ t.1.NormalForm 6 ∧
        ∃ s', simplify 6 (t.1, ∅) = .ok 6 (t.1, s') ∧ s'.applied = [] := by
  have hbuilt : Built restrictedTwice :=
    (((((Relation.ReflTransGen.refl.tail (.add rfl (by decide))).tail (.add rfl (by decide))).tail
      (.add rfl (by decide))).tail (.add rfl (by decide))).tail (.add rfl (by decide))).tail (.add rfl (by decide))
  have heval : (match simplify 5 (restrictedTwice, ∅) with
      | .ok form t => decide (form = 6 ∧ t.2.applied = [.restrictionMerge, .sumIdentity, .nullRestriction])
      | _ => false) = true := by
    decide +kernel
  split at heval
  case h_2 => cases heval
  rename_i form t ht
  obtain ⟨rfl, happlied⟩ := of_decide_eq_true heval
  obtain ⟨hforms, hnormal⟩ := simplify_normalForm hbuilt
  exact ⟨hbuilt, normalForm_restrictedTwice, hnormal 1 (by decide) normalForm_restrictedTwice, t, ht, happlied,
    hforms 5 6 t ht⟩

end Simplification

end ProcessCalculus
