import ProcessCalculus.Text.Layout
import ProcessCalculus.Treap.Represents

/-!
# Ordered maps

A map from keys to values as a stored treap. The comparison is a parameter, and keys that it finds equal
count as one key, of which the first stays. The priorities of new keys are drawn from a seeded random stream, so the
shape of the tree is reproducible. `toList` is the view.

* `toList_insert`: a new key enters the sorted list of entries; a known key keeps its place and gets the new value.
* `get?_eq_find?`: a lookup searches that list.
* `sorted_toList`: the list is strictly sorted by key.
-/

namespace ProcessCalculus

open Std SortedList

/-- An ordered map: a storage that is one tree, ordered by its keys. -/
structure TreapMap (α β : Type) (cmp : α → α → Ordering) where
  store : TreapStore α β
  exists_tree : ∃ t, store.Holds t ∧ t.Ordered cmp

namespace TreapMap

variable {α β : Type} {cmp : α → α → Ordering}

/-- The seed of a map for which none is given. -/
def defaultSeed : UInt64 := 0x7EA95EED

/-- The map without entries. -/
def empty (seed : UInt64 := defaultSeed) : TreapMap α β cmp :=
  ⟨{ priorities := .ofSeed seed }, .leaf, TreapStore.holds_empty _, List.Pairwise.nil⟩

instance : EmptyCollection (TreapMap α β cmp) := ⟨empty⟩

/-- The number of keys. -/
def size (m : TreapMap α β cmp) : Nat :=
  m.store.size

def isEmpty (m : TreapMap α β cmp) : Bool :=
  m.store.isEmpty

/-- What every tree answers is answered. -/
private theorem isSome_of_holds (m : TreapMap α β cmp) {γ : Type} {x : Option γ}
    (h : ∀ t, m.store.Holds t → ∃ a, x = some a) : x.isSome := by
  obtain ⟨t, ht, -⟩ := m.exists_tree
  obtain ⟨a, rfl⟩ := h t ht
  rfl

/-- The entries in the order of their keys. -/
def toList (m : TreapMap α β cmp) : List (α × β) :=
  m.store.entries.get (m.isSome_of_holds fun _ ht => ⟨_, ht.entries_eq⟩)

def keys (m : TreapMap α β cmp) : List α :=
  m.store.keys.get (m.isSome_of_holds fun _ ht => ⟨_, ht.keys_eq⟩)

def values (m : TreapMap α β cmp) : List β :=
  m.store.values.get (m.isSome_of_holds fun _ ht => ⟨_, ht.values_eq⟩)

/-- Visits the entries in the order of their keys. -/
def forEach {σ : Type} (m : TreapMap α β cmp) (visit : σ → α → β → σ) (start : σ) : σ :=
  (m.store.forEach visit start).get (m.isSome_of_holds fun _ ht => ⟨_, ht.forEach_eq visit start⟩)

/-- The height of the tree, which depends on the priorities drawn. -/
def height (m : TreapMap α β cmp) : Nat :=
  m.store.height.get (m.isSome_of_holds fun _ ht => ⟨_, ht.height_eq⟩)

/-- The written form: the entries between braces, given the texts of keys and values. -/
def text (key : α → String) (value : β → String) (m : TreapMap α β cmp) : String :=
  Text.braced (m.toList.map fun e => key e.1 ++ ": " ++ value e.2)

/-- The value under a key. -/
def get? (m : TreapMap α β cmp) (k : α) : Option β :=
  (m.store.get cmp k).get (m.isSome_of_holds fun _ ht => ⟨_, ht.get_eq cmp k⟩)

def contains (m : TreapMap α β cmp) (k : α) : Bool :=
  (m.store.has cmp k).get (m.isSome_of_holds fun _ ht => ⟨_, ht.has_eq cmp k⟩)

/-- Changes the value under a key, if the key is there. -/
def modify [TransCmp cmp] (m : TreapMap α β cmp) (k : α) (f : β → β) : TreapMap α β cmp :=
  let result := (m.store.modify cmp k f).get
    (m.isSome_of_holds fun _ ht => (ht.exists_modify cmp k f).imp' _ fun _ h => h.1)
  { store := result.2
    exists_tree := by
      obtain ⟨t, ht, hordered⟩ := m.exists_tree
      obtain ⟨s', hmodify, hs'⟩ := ht.exists_modify cmp k f
      refine ⟨t.modify cmp k f, ?_, hordered.modify k f⟩
      simpa only [result, hmodify, Option.get_some] using hs' }

/-- Puts a value under a key, and answers with the value that it replaces. A new key draws the next priority; a key
that is there already stays as it is and only its value is replaced. -/
def set [TransCmp cmp] (m : TreapMap α β cmp) (k : α) (v : β) : Option β × TreapMap α β cmp :=
  let result := (m.store.set cmp k v).get
    (m.isSome_of_holds fun _ ht => (ht.exists_set cmp k v).imp' _ fun _ h => h.1)
  let replaced : TreapMap α β cmp := {
    store := result.2
    exists_tree := by
      obtain ⟨t, ht, hordered⟩ := m.exists_tree
      obtain ⟨s', hset, hs'⟩ := ht.exists_set cmp k v
      refine ⟨_, ?_, hordered.insert m.store.priorities.next.1 k v⟩
      simpa only [result, hset, Option.get_some] using hs' }
  (result.1, replaced)

/-- Puts a value under a key. -/
def insert [TransCmp cmp] (m : TreapMap α β cmp) (k : α) (v : β) : TreapMap α β cmp :=
  (m.set k v).2

/-- The entries are those of the tree in the storage. -/
theorem toList_eq_of_holds {m : TreapMap α β cmp} {t : Treap α β} (ht : m.store.Holds t) : m.toList = t.toList := by
  simp only [toList, ht.entries_eq, Option.get_some]

theorem keys_eq (m : TreapMap α β cmp) : m.keys = m.toList.map Prod.fst := by
  obtain ⟨t, ht, -⟩ := m.exists_tree
  rw [toList_eq_of_holds ht]
  simp only [keys, ht.keys_eq, Option.get_some]

theorem sorted_toList (m : TreapMap α β cmp) : Sorted (Treap.byKey cmp) m.toList := by
  obtain ⟨t, ht, hordered⟩ := m.exists_tree
  rw [toList_eq_of_holds ht]
  exact hordered

theorem size_eq (m : TreapMap α β cmp) : m.size = m.toList.length := by
  obtain ⟨t, ht, -⟩ := m.exists_tree
  rw [toList_eq_of_holds ht]
  exact ht.size_eq

theorem get?_eq_find? [TransCmp cmp] (m : TreapMap α β cmp) (k : α) :
    m.get? k = (m.toList.find? fun e => cmp k e.1 == .eq).map Prod.snd := by
  obtain ⟨t, ht, hordered⟩ := m.exists_tree
  rw [toList_eq_of_holds ht, ← Treap.get?_eq_find? hordered]
  simp only [get?, ht.get_eq, Option.get_some]

theorem contains_eq (m : TreapMap α β cmp) (k : α) : m.contains k = (m.get? k).isSome := by
  obtain ⟨t, ht, -⟩ := m.exists_tree
  simp only [contains, get?, ht.has_eq, ht.get_eq, Option.get_some]

theorem toList_modify [TransCmp cmp] (m : TreapMap α β cmp) (k : α) (f : β → β) :
    (m.modify k f).toList = m.toList.map fun e => if cmp k e.1 = .eq then (e.1, f e.2) else e := by
  obtain ⟨t, ht, hordered⟩ := m.exists_tree
  obtain ⟨s', hmodify, hs'⟩ := ht.exists_modify cmp k f
  rw [toList_eq_of_holds ht, ← Treap.toList_modify hordered]
  apply toList_eq_of_holds
  simpa only [modify, hmodify, Option.get_some] using hs'

/-- The sorted list of entries with the new entry put in. -/
theorem toList_insert [TransCmp cmp] (m : TreapMap α β cmp) (k : α) (v : β) :
    (m.insert k v).toList = upsert (Treap.byKey cmp) (fun e => (e.1, v)) (k, v) m.toList := by
  obtain ⟨t, ht, hordered⟩ := m.exists_tree
  obtain ⟨s', hset, hs'⟩ := ht.exists_set cmp k v
  rw [toList_eq_of_holds ht, ← Treap.toList_insert hordered m.store.priorities.next.1]
  apply toList_eq_of_holds
  simpa only [insert, set, hset, Option.get_some] using hs'

end TreapMap

end ProcessCalculus
