import ProcessCalculus.Proofs.Calculus.Term

/-!
# The steps of terms

The rules of the calculus: which steps a term makes, when names are defined by `defs`.

* `Step`: the rules.
* `StepWithin`, `Step.within`: a bound on how often a derivation unfolds a name, for inductions on it.
* `Action.synchronises_iff`, `Renaming.takes_iff`: handshakes and renamings in the form in which the rules
  need them.
-/

namespace ProcessCalculus

open Std SortedList

/-- A renaming takes one action to another. Only labels that are renamed change. -/
inductive Renaming.Takes (r : Renaming) : Action → Action → Prop
  | silent : r.Takes .silent .silent
  | delay (d : UInt32) : r.Takes (.delay d) (.delay d)
  | renamed {old new : String} (p : Polarity) (h : ⟨old, new⟩ ∈ r.renames) :
      r.Takes (.visible old p) (.visible new p)
  | kept {label : String} (p : Polarity) (h : ∀ e ∈ r.renames, e.old ≠ label) :
      r.Takes (.visible label p) (.visible label p)

/-- The steps of a term, when `defs` relates names to the terms that define them. -/
inductive Step (defs : String → Term → Prop) : Term → Action → Term → Prop
  | act (a : Action) (t : Term) : Step defs (.act a t) a t
  | delay (d : UInt32) (t : Term) : Step defs (.delay d t) (.delay d) t
  | sumLeft {l a t} (r : Term) (h : Step defs l a t) : Step defs (.sum l r) a t
  | sumRight {r a t} (l : Term) (h : Step defs r a t) : Step defs (.sum l r) a t
  | left {l a l'} (r : Term) (h : Step defs l a l') : Step defs (.parallel l r) a (.parallel l' r)
  | right {r a r'} (l : Term) (h : Step defs r a r') : Step defs (.parallel l r) a (.parallel l r')
  | handshake {l l' r r' label} {p : Polarity} (hl : Step defs l (.visible label p) l')
      (hr : Step defs r (.visible label p.opposite) r') :
      Step defs (.parallel l r) .silent (.parallel l' r')
  | restrict {t a t'} {labels : LabelSet} (h : Step defs t a t')
      (hidden : ∀ label ∈ labels, ∀ p, a ≠ .visible label p) :
      Step defs (.restrict t labels) a (.restrict t' labels)
  | rename {t a t' b} {renames : Renaming} (h : Step defs t a t') (takes : renames.Takes a b) :
      Step defs (.rename t renames) b (.rename t' renames)
  | unfold {name t a t'} (definition : defs name t) (h : Step defs t a t') :
      Step defs (.name name) a t'

/-- The steps that are derived with at most `n` unfoldings of a name inside each other. -/
inductive StepWithin (defs : String → Term → Prop) : Nat → Term → Action → Term → Prop
  | act (n : Nat) (a : Action) (t : Term) : StepWithin defs n (.act a t) a t
  | delay (n : Nat) (d : UInt32) (t : Term) : StepWithin defs n (.delay d t) (.delay d) t
  | sumLeft {n l a t} (r : Term) (h : StepWithin defs n l a t) : StepWithin defs n (.sum l r) a t
  | sumRight {n r a t} (l : Term) (h : StepWithin defs n r a t) : StepWithin defs n (.sum l r) a t
  | left {n l a l'} (r : Term) (h : StepWithin defs n l a l') :
      StepWithin defs n (.parallel l r) a (.parallel l' r)
  | right {n r a r'} (l : Term) (h : StepWithin defs n r a r') :
      StepWithin defs n (.parallel l r) a (.parallel l r')
  | handshake {n l l' r r' label} {p : Polarity} (hl : StepWithin defs n l (.visible label p) l')
      (hr : StepWithin defs n r (.visible label p.opposite) r') :
      StepWithin defs n (.parallel l r) .silent (.parallel l' r')
  | restrict {n t a t'} {labels : LabelSet} (h : StepWithin defs n t a t')
      (hidden : ∀ label ∈ labels, ∀ p, a ≠ .visible label p) :
      StepWithin defs n (.restrict t labels) a (.restrict t' labels)
  | rename {n t a t' b} {renames : Renaming} (h : StepWithin defs n t a t')
      (takes : renames.Takes a b) :
      StepWithin defs n (.rename t renames) b (.rename t' renames)
  | unfold {n name t a t'} (definition : defs name t) (h : StepWithin defs n t a t') :
      StepWithin defs (n + 1) (.name name) a t'

variable {defs : String → Term → Prop} {t u : Term} {a : Action}

theorem StepWithin.mono {n k : Nat} (h : StepWithin defs n t a u) (hk : n ≤ k) :
    StepWithin defs k t a u := by
  induction h generalizing k with
  | act n a t => exact .act k a t
  | delay n d t => exact .delay k d t
  | sumLeft r _ ih => exact .sumLeft r (ih hk)
  | sumRight l _ ih => exact .sumRight l (ih hk)
  | left r _ ih => exact .left r (ih hk)
  | right l _ ih => exact .right l (ih hk)
  | handshake _ _ ihl ihr => exact .handshake (ihl hk) (ihr hk)
  | restrict _ hidden ih => exact .restrict (ih hk) hidden
  | rename _ takes ih => exact .rename (ih hk) takes
  | unfold definition _ ih =>
    obtain ⟨k, rfl⟩ : ∃ j, k = j + 1 := ⟨k - 1, by omega⟩
    exact .unfold definition (ih (by omega))

/-- Every derivation unfolds names some number of times. -/
theorem Step.within (h : Step defs t a u) : ∃ n, StepWithin defs n t a u := by
  induction h with
  | act a t => exact ⟨0, .act 0 a t⟩
  | delay d t => exact ⟨0, .delay 0 d t⟩
  | sumLeft r _ ih => exact ih.imp fun n h => .sumLeft r h
  | sumRight l _ ih => exact ih.imp fun n h => .sumRight l h
  | left r _ ih => exact ih.imp fun n h => .left r h
  | right l _ ih => exact ih.imp fun n h => .right l h
  | handshake _ _ ihl ihr =>
    obtain ⟨n, hl⟩ := ihl
    obtain ⟨k, hr⟩ := ihr
    exact ⟨max n k, .handshake (hl.mono (by omega)) (hr.mono (by omega))⟩
  | restrict _ hidden ih => exact ih.imp fun n h => .restrict h hidden
  | rename _ takes ih => exact ih.imp fun n h => .rename h takes
  | unfold definition _ ih =>
    obtain ⟨n, h⟩ := ih
    exact ⟨n + 1, .unfold definition h⟩

/-- A handshake is a use of one channel in the two directions. -/
theorem Action.synchronises_iff {a b : Action} :
    a.synchronises b = true ↔
      ∃ label p, a = .visible label p ∧ b = .visible label (Polarity.opposite p) := by
  constructor
  · intro h
    cases a <;> cases b <;> simp only [synchronises, Bool.and_eq_true, beq_iff_eq, bne_iff_ne,
      Bool.false_eq_true] at h
    rename_i x p y q
    obtain ⟨rfl, hpq⟩ := h
    refine ⟨x, p, rfl, ?_⟩
    cases p <;> cases q <;> simp_all [Polarity.opposite]
  · rintro ⟨label, p, rfl, rfl⟩
    cases p <;> simp [synchronises, Polarity.opposite]

theorem Polarity.opposite_opposite (p : Polarity) : p.opposite.opposite = p := by
  cases p <;> rfl

/-- An action passes a restriction if it uses no channel of the set. -/
theorem LabelSet.passes_iff {labels : LabelSet} {a : Action} :
    (!a.label?.any labels.contains) = true ↔ ∀ label ∈ labels, ∀ p, a ≠ .visible label p := by
  cases a with
  | visible label p =>
    simp only [Action.label?, Option.any_some, Bool.not_eq_eq_eq_not, Bool.not_true,
      Bool.eq_false_iff, ne_eq, contains_iff, Action.visible.injEq, not_and]
    constructor
    · rintro h x hx q rfl
      exact absurd hx h
    · intro h hl
      exact h label hl p rfl rfl
  | _ => simp [Action.label?]

namespace Renaming

variable {r : Renaming}

private theorem eq_of_mem_sorted {l : List Rename} (hs : Sorted Rename.byOld l) {e e' : Rename}
    (he : e ∈ l) (he' : e' ∈ l) (h : e.old = e'.old) : e = e' := by
  have hne {a b : Rename} (hab : Rename.byOld a b = .lt) : a.old ≠ b.old := by
    intro hold
    rw [Rename.byOld, compareOn, hold, @ReflCmp.compare_self String compare] at hab
    cases hab
  induction l with
  | nil => cases he
  | cons b l ih =>
    obtain ⟨hb, hl⟩ := List.pairwise_cons.1 hs
    rcases List.mem_cons.1 he with rfl | hel <;> rcases List.mem_cons.1 he' with rfl | hel'
    · rfl
    · exact absurd h (hne (hb e' hel'))
    · exact absurd h.symm (hne (hb e hel))
    · exact ih hl hel hel'

/-- In a renaming no label is renamed twice. -/
theorem eq_of_mem {e e' : Rename} (he : e ∈ r.renames) (he' : e' ∈ r.renames) (h : e.old = e'.old) :
    e = e' :=
  eq_of_mem_sorted r.sorted he he' h

theorem new?_eq_some_iff {old new : String} : r.new? old = some new ↔ ⟨old, new⟩ ∈ r.renames := by
  unfold new?
  rw [Option.map_eq_some_iff]
  constructor
  · rintro ⟨e, he, rfl⟩
    have ho := List.find?_some he
    rw [beq_iff_eq] at ho
    exact ho ▸ List.mem_of_find?_eq_some he
  · intro h
    cases hf : r.renames.find? fun e => e.old == old with
    | none =>
      rw [List.find?_eq_none] at hf
      exact absurd (beq_self_eq_true old) (hf _ h)
    | some e =>
      have ho := List.find?_some hf
      rw [beq_iff_eq] at ho
      have he := eq_of_mem (List.mem_of_find?_eq_some hf) h ho
      exact ⟨e, rfl, by rw [he]⟩

theorem new?_eq_none_iff {label : String} :
    r.new? label = none ↔ ∀ e ∈ r.renames, e.old ≠ label := by
  simp [new?]

/-- What a renaming makes of an action is the one action that it takes it to. -/
theorem takes_iff {a b : Action} : r.Takes a b ↔ r.apply a = b := by
  constructor
  · intro h
    cases h with
    | silent => rfl
    | delay d => rfl
    | renamed p h => rw [apply_visible, new?_eq_some_iff.2 h, Option.getD_some]
    | kept p h => rw [apply_visible, new?_eq_none_iff.2 h, Option.getD_none]
  · rintro rfl
    cases a with
    | silent => exact .silent
    | delay d => exact .delay d
    | visible label p =>
      rw [apply_visible]
      cases h : r.new? label with
      | some new => exact .renamed p (new?_eq_some_iff.1 h)
      | none => exact .kept p (new?_eq_none_iff.1 h)

end Renaming

end ProcessCalculus
