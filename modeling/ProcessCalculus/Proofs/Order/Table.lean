import Std.Data.TreeMap.Lemmas

/-!
# Tables

Notes are kept in maps whose keys are compared by orders in which only equal keys compare as equal.

* `Table.getElem?_insert`, `Table.getElem?_insertIfNew`: what a map holds after an entry is made.
-/

namespace ProcessCalculus

namespace Table

variable {α β : Type} {cmp : α → α → Ordering} [Std.TransCmp cmp] [Std.LawfulEqCmp cmp] [DecidableEq α]

theorem getElem?_insert (m : Std.TreeMap α β cmp) (k a : α) (v : β) :
    (m.insert k v)[a]? = if k = a then some v else m[a]? := by
  rw [Std.TreeMap.getElem?_insert]
  simp only [Std.LawfulEqCmp.compare_eq_iff_eq]

theorem getElem?_insertIfNew (m : Std.TreeMap α β cmp) (k a : α) (v : β) :
    (m.insertIfNew k v)[a]? = if k = a ∧ m[a]? = none then some v else m[a]? := by
  rw [Std.TreeMap.getElem?_insertIfNew]
  simp only [Std.LawfulEqCmp.compare_eq_iff_eq]
  by_cases hk : k = a
  · subst hk
    simp
  · simp [hk]

end Table

end ProcessCalculus
