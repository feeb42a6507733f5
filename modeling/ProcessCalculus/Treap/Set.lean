import ProcessCalculus.Treap.Map

/-!
# Ordered sets

An ordered map without values, seen as the strictly sorted list of its elements.

* `toList_insert`: insertion is insertion into the sorted list.
* `contains_iff`: membership is decided by comparison with the listed elements.
* `mem_insert`, `toList_eq_iff`: where equal elements are identical, a set is determined by its
  members.
-/

namespace ProcessCalculus

open Std SortedList

/-- A set ordered by `cmp`. Elements that `cmp` finds equal count as one, of which the first
stays. -/
structure TreapSet (α : Type) (cmp : α → α → Ordering) where
  map : TreapMap α Unit cmp

namespace TreapSet

variable {α : Type} {cmp : α → α → Ordering}

instance : EmptyCollection (TreapSet α cmp) := ⟨⟨∅⟩⟩

instance : Inhabited (TreapSet α cmp) := ⟨∅⟩

/-- The elements in order. -/
def toList (s : TreapSet α cmp) : List α :=
  s.map.keys

def size (s : TreapSet α cmp) : Nat :=
  s.map.size

def isEmpty (s : TreapSet α cmp) : Bool :=
  s.map.isEmpty

/-- The written form: the elements between braces, given their texts. -/
def text (element : α → String) (s : TreapSet α cmp) : String :=
  Text.braced (s.toList.map element)

def contains (s : TreapSet α cmp) (a : α) : Bool :=
  s.map.contains a

/-- Adds an element, unless an equal one is there. -/
def insert [TransCmp cmp] (s : TreapSet α cmp) (a : α) : TreapSet α cmp :=
  ⟨s.map.insert a ()⟩

/-- Adds the elements of a list, one after the other. -/
def insertMany [TransCmp cmp] (s : TreapSet α cmp) (l : List α) : TreapSet α cmp :=
  l.foldl insert s

/-- The set of the elements of a list. -/
def ofList [TransCmp cmp] (l : List α) : TreapSet α cmp :=
  insertMany ∅ l

/-- Adds the elements of another set, in their order. -/
def union [TransCmp cmp] (s t : TreapSet α cmp) : TreapSet α cmp :=
  s.insertMany t.toList

instance : Membership α (TreapSet α cmp) := ⟨fun s a => a ∈ s.toList⟩

theorem mem_def {s : TreapSet α cmp} {a : α} : a ∈ s ↔ a ∈ s.toList := Iff.rfl

@[simp] theorem not_mem_empty {a : α} : a ∉ (∅ : TreapSet α cmp) := List.not_mem_nil

theorem sorted_toList (s : TreapSet α cmp) : Sorted cmp s.toList := by
  unfold Sorted toList
  rw [TreapMap.keys_eq, List.pairwise_map]
  exact s.map.sorted_toList

theorem size_eq_length (s : TreapSet α cmp) : s.size = s.toList.length := by
  unfold size toList
  rw [TreapMap.keys_eq, List.length_map, s.map.size_eq]

variable [TransCmp cmp]

theorem nodup_toList (s : TreapSet α cmp) : s.toList.Nodup := by
  refine s.sorted_toList.imp ?_
  rintro a b hab rfl
  rw [@ReflCmp.compare_self α cmp] at hab
  cases hab

theorem toList_insert (s : TreapSet α cmp) (a : α) :
    (s.insert a).toList = upsert cmp id a s.toList := by
  have key (l : List (α × Unit)) :
      (upsert (Treap.byKey cmp) (fun e => (e.1, ())) (a, ()) l).map Prod.fst =
        upsert cmp id a (l.map Prod.fst) := by
    induction l with
    | nil => rfl
    | cons b l ih =>
      simp only [upsert, Treap.byKey, List.map_cons]
      split <;> simp_all
  unfold toList insert
  rw [TreapMap.keys_eq, TreapMap.keys_eq, TreapMap.toList_insert, key]

theorem contains_iff (s : TreapSet α cmp) (a : α) :
    s.contains a = true ↔ ∃ b ∈ s.toList, cmp a b = .eq := by
  unfold contains toList
  rw [TreapMap.keys_eq, TreapMap.contains_eq, TreapMap.get?_eq_find?]
  simp [List.find?_isSome]

theorem mem_insert [LawfulEqCmp cmp] {s : TreapSet α cmp} {a b : α} :
    b ∈ s.insert a ↔ b = a ∨ b ∈ s := by
  rw [mem_def, toList_insert, mem_upsert, mem_def]

theorem mem_insertMany [LawfulEqCmp cmp] {s : TreapSet α cmp} {l : List α} {b : α} :
    b ∈ s.insertMany l ↔ b ∈ l ∨ b ∈ s := by
  induction l generalizing s with
  | nil => simp [insertMany]
  | cons a l ih =>
    rw [insertMany, List.foldl_cons, ← insertMany, ih, mem_insert, List.mem_cons]
    exact or_left_comm.trans or_assoc.symm

theorem mem_ofList [LawfulEqCmp cmp] {l : List α} {b : α} :
    b ∈ (ofList l : TreapSet α cmp) ↔ b ∈ l := by
  simp [ofList, mem_insertMany]

theorem mem_union [LawfulEqCmp cmp] {s t : TreapSet α cmp} {b : α} :
    b ∈ s.union t ↔ b ∈ s ∨ b ∈ t := by
  rw [union, mem_insertMany, ← mem_def, or_comm]

theorem contains_iff_mem [LawfulEqCmp cmp] {s : TreapSet α cmp} {a : α} :
    s.contains a = true ↔ a ∈ s := by
  rw [contains_iff]
  constructor
  · rintro ⟨b, hb, h⟩
    exact LawfulEqCmp.eq_of_compare h ▸ hb
  · exact fun h => ⟨a, h, ReflCmp.compare_self⟩

/-- Sets with the same members list the same elements, whatever the shapes of their trees. -/
theorem toList_eq_iff [LawfulEqCmp cmp] {s t : TreapSet α cmp} :
    s.toList = t.toList ↔ ∀ a, a ∈ s ↔ a ∈ t := by
  constructor
  · intro h a
    rw [mem_def, h, mem_def]
  · exact eq_of_mem_iff s.sorted_toList t.sorted_toList

end TreapSet

end ProcessCalculus
