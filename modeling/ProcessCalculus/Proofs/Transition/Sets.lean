import ProcessCalculus.Proofs.Order.Utf8
import ProcessCalculus.Transition.Basic

/-!
# Sets of transitions

Sets of transitions are put together in any way: transition by transition, from lists, from other sets. Whatever the
way, and whatever the shape of the tree that came from it, a set is determined by its members.

* `Action.Before`, `Transition.Before`: the order in which transitions are listed, with labels by their bytes.
* `Transition.compare_eq_lt_iff`: this is the order of comparison.
* `Transitions.Assembly`: the ways to put a set together.
* `Transitions.Assembly.build_isSet`: what is put together is a set, listed in order.
-/

namespace ProcessCalculus

open Std

/-- The order of actions: the silent one first, then the uses of channels by the bytes of their labels and inputs first,
and then the delays by their durations. -/
inductive Action.Before : Action → Action → Prop
  | silentVisible (b : String) (q : Polarity) : Before .silent (.visible b q)
  | silentDelay (d : UInt32) : Before .silent (.delay d)
  | visibleDelay (a : String) (p : Polarity) (d : UInt32) : Before (.visible a p) (.delay d)
  | label {a b : String} (h : a.toUTF8.toList < b.toUTF8.toList) (p q : Polarity) : Before (.visible a p) (.visible b q)
  | polarity (a : String) : Before (.visible a .input) (.visible a .output)
  | duration {d d' : UInt32} (h : d < d') : Before (.delay d) (.delay d')

/-- The order of transitions: by their actions, and with the same action by their targets. -/
inductive Transition.Before : Transition → Transition → Prop
  | action {a b : Action} (h : a.Before b) (t u : ProcessId) : Before ⟨a, t⟩ ⟨b, u⟩
  | target (a : Action) {t u : ProcessId} (h : t < u) : Before ⟨a, t⟩ ⟨a, u⟩

theorem Action.before_visible_iff {a b : String} {p q : Polarity} :
    Before (.visible a p) (.visible b q) ↔ a < b ∨ a = b ∧ p.rank < q.rank := by
  constructor
  · intro h
    cases h with
    | label h => exact .inl (Bytes.toUTF8_lt_iff.1 h)
    | polarity => exact .inr ⟨rfl, Nat.zero_lt_one⟩
  · rintro (h | ⟨rfl, h⟩)
    · exact .label (Bytes.toUTF8_lt_iff.2 h) p q
    · cases p <;> cases q <;> simp only [Polarity.rank, Nat.lt_irrefl, Nat.not_lt_zero] at h
      exact .polarity a

theorem Action.compare_eq_lt_iff {a b : Action} : compare a b = .lt ↔ a.Before b := by
  have hcompare : compare a b = (compareLex (compareOn rank) <| compareLex (compareOn labelKey) <|
    compareLex (compareOn polarityKey) (compareOn durationKey)) a b := rfl
  have hstring (s t : String) : compare s t = .lt ↔ s < t := compareOfLessAndEq_eq_lt
  rw [hcompare]
  simp only [compareLex, compareOn, Ordering.then_eq_lt, hstring, Std.compare_eq_lt,
    Std.compare_eq_iff_eq]
  cases a with
  | silent =>
    cases b with
    | silent =>
      refine iff_of_false ?_ fun h => by cases h
      simp [rank, labelKey, polarityKey, durationKey]
    | visible b q => exact iff_of_true (.inl Nat.zero_lt_one) (.silentVisible b q)
    | delay d => exact iff_of_true (.inl Nat.zero_lt_two) (.silentDelay d)
  | visible a p =>
    cases b with
    | silent => exact iff_of_false (by simp [rank]) fun h => by cases h
    | visible b q => simp [before_visible_iff, rank, labelKey, polarityKey, durationKey]
    | delay d => exact iff_of_true (.inl Nat.one_lt_two) (.visibleDelay a p d)
  | delay d =>
    cases b with
    | silent => exact iff_of_false (by simp [rank]) fun h => by cases h
    | visible b q => exact iff_of_false (by simp [rank]) fun h => by cases h
    | delay d' =>
      have hdelay : Before (.delay d) (.delay d') ↔ d < d' := by
        refine ⟨fun h => ?_, .duration⟩
        cases h with
        | duration h => exact h
      simp [hdelay, rank, labelKey, polarityKey, durationKey]

theorem Transition.compare_eq_lt_iff {t u : Transition} : compare t u = .lt ↔ t.Before u := by
  obtain ⟨a, t⟩ := t
  obtain ⟨b, u⟩ := u
  have hcompare : compare (Transition.mk a t) ⟨b, u⟩ = (compare a b).then (compare t u) := rfl
  rw [hcompare, Ordering.then_eq_lt, Action.compare_eq_lt_iff, Std.compare_eq_iff_eq, Nat.compare_eq_lt]
  constructor
  · rintro (h | ⟨rfl, h⟩)
    · exact .action h t u
    · exact .target a h
  · intro h
    cases h with
    | action h => exact .inl h
    | target _ h => exact .inr ⟨rfl, h⟩

namespace Transitions

/-- A way to put a set of transitions together. -/
inductive Assembly
  | empty
  | insert (rest : Assembly) (t : Transition)
  | extend (rest : Assembly) (ts : List Transition)
  | collect (ts : List Transition)
  | union (left right : Assembly)

namespace Assembly

/-- The set that is put together. -/
def build : Assembly → Transitions
  | empty => ∅
  | insert rest t => rest.build.insert t
  | extend rest ts => rest.build.insertMany ts
  | collect ts => TreapSet.ofList ts
  | union left right => left.build.union right.build

/-- All transitions that are put into the set, as often as they are. -/
def given : Assembly → List Transition
  | empty => []
  | insert rest t => t :: rest.given
  | extend rest ts => ts ++ rest.given
  | collect ts => ts
  | union left right => left.given ++ right.given

/-- The members are the transitions that were put in, in whatever order. -/
theorem mem_build {a : Assembly} {t : Transition} : t ∈ a.build ↔ t ∈ a.given := by
  induction a with
  | empty => exact iff_of_false TreapSet.not_mem_empty List.not_mem_nil
  | insert rest u ih => rw [build, given, TreapSet.mem_insert, List.mem_cons, ih]
  | extend rest ts ih => rw [build, given, TreapSet.mem_insertMany, List.mem_append, ih]
  | collect ts => exact TreapSet.mem_ofList
  | union left right ihl ihr => rw [build, given, TreapSet.mem_union, List.mem_append, ihl, ihr]

end Assembly

/-- Transitions are listed in order. -/
theorem pairwise_before (ts : Transitions) : ts.toList.Pairwise Transition.Before :=
  ts.sorted_toList.imp Transition.compare_eq_lt_iff.1

/-- Transitions with one action are listed in the order of their targets. -/
theorem pairwise_targets (ts : Transitions) (a : Action) : (ts.targets a).Pairwise (· < ·) := by
  rw [targets, withAction, List.pairwise_map]
  refine (ts.pairwise_before.filter _).imp_of_mem ?_
  intro t u ht hu hlt
  have hta : t.action = a := by simpa using (List.mem_filter.1 ht).2
  have hua : u.action = a := by simpa using (List.mem_filter.1 hu).2
  cases hlt with
  | action h =>
    -- no action comes before itself
    subst hta
    subst hua
    have hself := Action.compare_eq_lt_iff.2 h
    rw [@ReflCmp.compare_self Action compare] at hself
    cases hself
  | target _ h => exact h

namespace Assembly

/-- However sets are put together: their transitions are listed in strictly increasing order, and they are those that
were put in. Two sets are equal exactly if the same transitions were put in. The union of two sets has the members of
both, and it does not matter in which order and how often sets are united. The set of the listed transitions is the set
itself. The targets of an action are listed in strictly increasing order, and they are those of its transitions. -/
theorem build_isSet (a b c : Assembly) :
    a.build.toList.Pairwise Transition.Before ∧
    (∀ t, (t ∈ a.build.toList ↔ t ∈ a.given) ∧ (a.build.contains t = true ↔ t ∈ a.given)) ∧
    ((a.build == b.build) = true ↔ ∀ t, t ∈ a.given ↔ t ∈ b.given) ∧
    (∀ t, t ∈ a.build.union b.build ↔ t ∈ a.given ∨ t ∈ b.given) ∧
    (a.build.union b.build == b.build.union a.build) = true ∧
    ((a.build.union b.build).union c.build == a.build.union (b.build.union c.build)) = true ∧
    (a.build.union a.build == a.build) = true ∧
    (TreapSet.ofList a.build.toList == a.build) = true ∧
    ∀ action, (a.build.targets action).Pairwise (· < ·) ∧
      ∀ id, id ∈ a.build.targets action ↔ ⟨action, id⟩ ∈ a.given := by
  refine ⟨a.build.pairwise_before, fun t => ⟨mem_build, TreapSet.contains_iff_mem.trans mem_build⟩,
    ?_, ?_, ?_, ?_, ?_, ?_, fun action => ⟨a.build.pairwise_targets action, fun id => mem_targets.trans mem_build⟩⟩
  · simp only [beq_iff, mem_build]
  · simp only [TreapSet.mem_union, mem_build, implies_true]
  · rw [beq_iff]
    intro t
    rw [TreapSet.mem_union, TreapSet.mem_union, or_comm]
  · rw [beq_iff]
    intro t
    simp only [TreapSet.mem_union, or_assoc]
  · rw [beq_iff]
    intro t
    rw [TreapSet.mem_union, or_self]
  · rw [beq_iff]
    intro t
    rw [TreapSet.mem_ofList, ← TreapSet.mem_def]

/-- Two orders of insertion, one of them with a repetition, and a union. -/
example :
    let inputs : Transition := ⟨.visible "a" .input, 3⟩
    let outputs : Transition := ⟨.visible "a" .output, 1⟩
    let silent : Transition := ⟨.silent, 5⟩
    (((empty.insert outputs).insert silent).insert inputs).build.toList = [silent, inputs, outputs] ∧
      ((collect [inputs]).union (collect [outputs, silent, outputs])).build.toList = [silent, inputs, outputs] := by
  decide +kernel

end Assembly

end Transitions

end ProcessCalculus
