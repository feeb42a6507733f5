import ProcessCalculus.Term.Action
import ProcessCalculus.Order.SortedList

/-!
# Renamings of channels

A finite map from old labels to new ones, held as the list of its renames, strictly sorted by the
old label, so that equal renamings are equal values.

* `apply_silent`, `apply_delay`, `apply_visible`: only labels change, never a direction, and no
  action that uses no channel.
-/

namespace ProcessCalculus

open Std SortedList

/-- One rename: the label it replaces and the label it gives. -/
structure Rename where
  old : String
  new : String
deriving DecidableEq

namespace Rename

/-- Renames are compared by the label they replace. -/
def byOld (a b : Rename) : Ordering :=
  compareOn old a b

instance : TransCmp byOld :=
  inferInstanceAs <| TransCmp <| compareOn old

instance : Ord Rename where
  compare := compareLex (compareOn old) (compareOn new)

instance : TransOrd Rename :=
  inferInstanceAs <| TransCmp <| compareLex (compareOn old) (compareOn new)

instance : LawfulEqOrd Rename where
  eq_of_compare {a b} h := by
    have h : compareLex (compareOn old) (compareOn new) a b = .eq := h
    simp only [compareLex_eq_eq, compareOn, Std.compare_eq_iff_eq] at h
    cases a
    cases b
    simp_all

end Rename

/-- A renaming of channels. -/
structure Renaming where
  renames : List Rename
  sorted : Sorted Rename.byOld renames
deriving DecidableEq

namespace Renaming

instance : EmptyCollection Renaming := ⟨[], List.Pairwise.nil⟩

instance : Inhabited Renaming := ⟨∅⟩

def isEmpty (r : Renaming) : Bool :=
  r.renames.isEmpty

/-- Adds a rename; an earlier one of the same old label is replaced. -/
def rename (r : Renaming) (old new : String) : Renaming where
  renames := upsert Rename.byOld (fun e => { e with new }) ⟨old, new⟩ r.renames
  sorted := by
    refine sorted_upsert (fun b _ => ?_) r.sorted
    exact @ReflCmp.compare_self String compare _ b.old

/-- The renaming that adds the renames of a list in order. -/
def ofList (renames : List Rename) : Renaming :=
  renames.foldl (fun r e => r.rename e.old e.new) ∅

/-- The label that replaces `label`, if it is renamed. -/
def new? (r : Renaming) (label : String) : Option String :=
  (r.renames.find? fun e => e.old == label).map Rename.new

/-- The action after renaming. -/
def apply (r : Renaming) : Action → Action
  | .visible label polarity => .visible ((r.new? label).getD label) polarity
  | action => action

@[simp] theorem apply_silent (r : Renaming) : r.apply .silent = .silent := rfl

@[simp] theorem apply_delay (r : Renaming) (d : UInt32) : r.apply (.delay d) = .delay d := rfl

theorem apply_visible (r : Renaming) (label : String) (p : Polarity) :
    r.apply (.visible label p) = .visible ((r.new? label).getD label) p := rfl

/-- Renamings are ordered by their lists of renames. -/
instance : Ord Renaming where
  compare := compareOn renames

instance : TransOrd Renaming :=
  inferInstanceAs <| TransCmp <| compareOn renames

instance : LawfulEqOrd Renaming where
  eq_of_compare {r s} h := by
    have h : compare r.renames s.renames = .eq := h
    cases r
    cases s
    simp_all

end Renaming

end ProcessCalculus
