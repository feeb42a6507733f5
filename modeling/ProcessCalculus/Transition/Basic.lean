import ProcessCalculus.Program.Fault
import ProcessCalculus.Treap.Set

/-!
# Transitions

A transition is an action and the process it leads to. The transitions of a process form an
ordered set, in the order of actions and then of targets.

* `Transitions.beq_iff_toList`: two sets are equal if they list the same transitions.
* `Transitions.beq_iff`: two sets are equal if they have the same members, however they were
  built.
* `Transitions.mem_targets`: the targets of an action.
-/

namespace ProcessCalculus

open Std

/-- A step that a process can make. -/
structure Transition where
  action : Action
  target : ProcessId
deriving DecidableEq

namespace Transition

instance : Ord Transition where
  compare := compareLex (compareOn action) (compareOn target)

instance : TransOrd Transition :=
  inferInstanceAs <| TransCmp <| compareLex (compareOn action) (compareOn target)

instance : LawfulEqOrd Transition where
  eq_of_compare {a b} h := by
    have h : compareLex (compareOn action) (compareOn target) a b = .eq := h
    simp only [compareLex_eq_eq, compareOn, Std.compare_eq_iff_eq] at h
    cases a
    cases b
    simp_all

/-- The written form: an arrow with the action on it. -/
def text (t : Transition) : String :=
  "--" ++ t.action.text ++ "--> " ++ ProcessId.text t.target

/-- The written form as a record of its parts. -/
def recordText (t : Transition) : String :=
  Text.record "Transition"
    [("action", t.action.recordText), ("target", ProcessId.text t.target)]

end Transition

/-- The steps of a process. -/
abbrev Transitions := TreapSet Transition compare

namespace Transitions

/-- The transitions that perform a given action, in order. -/
def withAction (ts : Transitions) (a : Action) : List Transition :=
  ts.toList.filter fun t => t.action == a

/-- Where an action leads, in increasing order. -/
def targets (ts : Transitions) (a : Action) : List ProcessId :=
  (ts.withAction a).map Transition.target

/-- The written form as a set of records. -/
def recordText (ts : Transitions) : String :=
  ts.text Transition.recordText

/-- Sets of different sizes differ, and only sets of one size are compared element by element. -/
instance : BEq Transitions := ⟨fun s t => s.size == t.size && s.toList == t.toList⟩

/-- The sizes need not be looked at, since a set is as large as the list of its elements. -/
theorem beq_iff_toList {s t : Transitions} : (s == t) = true ↔ s.toList = t.toList := by
  have hdef : (s == t) = (s.size == t.size && s.toList == t.toList) := rfl
  rw [hdef, Bool.and_eq_true, beq_iff_eq, beq_iff_eq, TreapSet.size_eq_length, TreapSet.size_eq_length]
  exact and_iff_right_of_imp (congrArg List.length)

theorem beq_iff {s t : Transitions} : (s == t) = true ↔ ∀ a, a ∈ s ↔ a ∈ t := by
  rw [beq_iff_toList, TreapSet.toList_eq_iff]

theorem mem_targets {ts : Transitions} {a : Action} {id : ProcessId} :
    id ∈ ts.targets a ↔ ⟨a, id⟩ ∈ ts := by
  simp only [targets, withAction, List.mem_map, List.mem_filter, beq_iff_eq, TreapSet.mem_def]
  constructor
  · rintro ⟨t, ⟨ht, rfl⟩, rfl⟩
    exact ht
  · exact fun h => ⟨_, ⟨h, rfl⟩, rfl⟩

end Transitions

end ProcessCalculus
