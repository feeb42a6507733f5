import ProcessCalculus.Order.SortedList

/-!
# Sets of labels

A finite set of channel labels, held as its strictly sorted list of members, so that equal sets
are equal values.

* `mem_insert`, `mem_union`, `mem_ofList`: the members of the sets that the operations build.
* `ext`: a set is determined by its members.
-/

namespace ProcessCalculus

open Std SortedList

/-- A finite set of labels. -/
structure LabelSet where
  toList : List String
  sorted : Sorted compare toList
deriving DecidableEq

namespace LabelSet

instance : EmptyCollection LabelSet := ⟨[], List.Pairwise.nil⟩

instance : Inhabited LabelSet := ⟨∅⟩

def size (s : LabelSet) : Nat :=
  s.toList.length

def isEmpty (s : LabelSet) : Bool :=
  s.toList.isEmpty

def contains (s : LabelSet) (label : String) : Bool :=
  s.toList.contains label

instance : Membership String LabelSet := ⟨fun s label => label ∈ s.toList⟩

def insert (s : LabelSet) (label : String) : LabelSet where
  toList := upsert compare id label s.toList
  sorted := sorted_upsert (fun _ _ => ReflCmp.compare_self) s.sorted

/-- Adds the labels of a list, one after the other. -/
def insertMany (s : LabelSet) (labels : List String) : LabelSet :=
  labels.foldl insert s

def ofList (labels : List String) : LabelSet :=
  insertMany ∅ labels

def union (s t : LabelSet) : LabelSet :=
  s.insertMany t.toList

instance : Union LabelSet := ⟨union⟩

theorem mem_def {s : LabelSet} {a : String} : a ∈ s ↔ a ∈ s.toList := Iff.rfl

@[simp] theorem contains_iff {s : LabelSet} {a : String} : s.contains a = true ↔ a ∈ s := by
  simp [contains, mem_def]

@[simp] theorem not_mem_empty {a : String} : a ∉ (∅ : LabelSet) := List.not_mem_nil

theorem mem_insert {s : LabelSet} {a b : String} : b ∈ s.insert a ↔ b = a ∨ b ∈ s :=
  mem_upsert

theorem mem_insertMany {s : LabelSet} {l : List String} {b : String} :
    b ∈ s.insertMany l ↔ b ∈ l ∨ b ∈ s := by
  induction l generalizing s with
  | nil => simp [insertMany]
  | cons a l ih =>
    rw [insertMany, List.foldl_cons, ← insertMany, ih, mem_insert, List.mem_cons]
    exact or_left_comm.trans or_assoc.symm

theorem mem_ofList {l : List String} {b : String} : b ∈ ofList l ↔ b ∈ l := by
  simp [ofList, mem_insertMany]

theorem mem_union {s t : LabelSet} {b : String} : b ∈ s ∪ t ↔ b ∈ s ∨ b ∈ t := by
  change b ∈ s.insertMany t.toList ↔ _
  rw [mem_insertMany, ← mem_def, or_comm]

theorem ext {s t : LabelSet} (h : ∀ a, a ∈ s ↔ a ∈ t) : s = t := by
  have := eq_of_mem_iff s.sorted t.sorted h
  cases s
  cases t
  simp_all

/-- Sets are ordered by their lists of members. -/
instance : Ord LabelSet where
  compare := compareOn toList

instance : TransOrd LabelSet :=
  inferInstanceAs <| TransCmp <| compareOn toList

instance : LawfulEqOrd LabelSet where
  eq_of_compare {s t} h := by
    have h : compare s.toList t.toList = .eq := h
    cases s
    cases t
    simp_all

end LabelSet

end ProcessCalculus
