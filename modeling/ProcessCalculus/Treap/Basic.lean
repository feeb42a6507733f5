import ProcessCalculus.Order.SortedList

/-!
# Treaps

Binary search trees whose nodes carry a priority, kept in heap order by rotations. `toList` is the
view by which every operation is described.

* `toList_insert`: inserting a key is inserting it into the sorted list of entries.
* `toList_modify`: changing the value of a key changes the entry that stands in the list.
* `get?_eq_find?`: looking up a key is searching the list.
-/

namespace ProcessCalculus

open Std SortedList

/-- A binary tree with a priority, a key and a value at each node. -/
inductive Treap (α β : Type) where
  | leaf
  | node (left : Treap α β) (priority : UInt64) (key : α) (value : β) (right : Treap α β)

namespace Treap

variable {α β : Type}

/-- The entries from left to right. -/
def toList : Treap α β → List (α × β)
  | leaf => []
  | node l _ k v r => l.toList ++ (k, v) :: r.toList

/-- The number of nodes on the longest path from the root. -/
def height : Treap α β → Nat
  | leaf => 0
  | node l _ _ _ r => max l.height r.height + 1

/-- The order of entries by their keys. -/
def byKey (cmp : α → α → Ordering) : α × β → α × β → Ordering :=
  fun a b => cmp a.1 b.1

instance {cmp : α → α → Ordering} [TransCmp cmp] :
    TransCmp (byKey cmp : α × β → α × β → Ordering) where
  eq_swap {a b} := @OrientedCmp.eq_swap α cmp _ a.1 b.1
  isLE_trans {a b c} := @TransCmp.isLE_trans α cmp _ a.1 b.1 c.1

/-- The keys increase strictly from left to right. -/
def Ordered (cmp : α → α → Ordering) (t : Treap α β) : Prop :=
  Sorted (byKey cmp) t.toList

/-- The value under a key. -/
def get? (cmp : α → α → Ordering) (k : α) : Treap α β → Option β
  | leaf => none
  | node l _ k' v r =>
    match cmp k k' with
    | .lt => l.get? cmp k
    | .eq => some v
    | .gt => r.get? cmp k

/-- Changes the value under a key. -/
def modify (cmp : α → α → Ordering) (k : α) (f : β → β) : Treap α β → Treap α β
  | leaf => leaf
  | node l p k' v r =>
    match cmp k k' with
    | .lt => node (l.modify cmp k f) p k' v r
    | .eq => node l p k' (f v) r
    | .gt => node l p k' v (r.modify cmp k f)

/-- A node over a new left subtree. If that subtree's root has a higher priority, it is rotated
to the top. -/
def nodeLeft (l : Treap α β) (p : UInt64) (k : α) (v : β) (r : Treap α β) : Treap α β :=
  match l with
  | node ll lp lk lv lr => if lp > p then node ll lp lk lv (node lr p k v r) else node l p k v r
  | leaf => node l p k v r

/-- A node over a new right subtree. If that subtree's root has a higher priority, it is rotated
to the top. -/
def nodeRight (l : Treap α β) (p : UInt64) (k : α) (v : β) (r : Treap α β) : Treap α β :=
  match r with
  | node rl rp rk rv rr => if rp > p then node (node l p k v rl) rp rk rv rr else node l p k v r
  | leaf => node l p k v r

/-- Puts an entry into the tree: a new leaf with the given priority, rotated upwards while its
priority is higher than its parent's. A key that equals one in the tree replaces that one's value
only. -/
def insert (cmp : α → α → Ordering) (priority : UInt64) (k : α) (v : β) : Treap α β → Treap α β
  | leaf => node leaf priority k v leaf
  | node l p k' v' r =>
    match cmp k k' with
    | .lt => nodeLeft (l.insert cmp priority k v) p k' v' r
    | .eq => node l p k' v r
    | .gt => nodeRight l p k' v' (r.insert cmp priority k v)

@[simp] theorem toList_leaf : (leaf : Treap α β).toList = [] := rfl

@[simp] theorem toList_nodeLeft (l : Treap α β) (p : UInt64) (k : α) (v : β) (r : Treap α β) :
    (nodeLeft l p k v r).toList = l.toList ++ (k, v) :: r.toList := by
  cases l with
  | leaf => rfl
  | node => simp only [nodeLeft]; split <;> simp [toList]

@[simp] theorem toList_nodeRight (l : Treap α β) (p : UInt64) (k : α) (v : β) (r : Treap α β) :
    (nodeRight l p k v r).toList = l.toList ++ (k, v) :: r.toList := by
  cases r with
  | leaf => rfl
  | node => simp only [nodeRight]; split <;> simp [toList]

variable {cmp : α → α → Ordering}

/-- The parts of an ordered tree: both subtrees are ordered, and the root's key lies between. -/
theorem Ordered.parts {l r : Treap α β} {p : UInt64} {k : α} {v : β}
    (h : (node l p k v r).Ordered cmp) :
    l.Ordered cmp ∧ r.Ordered cmp ∧ (∀ e ∈ l.toList, cmp e.1 k = .lt) ∧
      ∀ e ∈ r.toList, cmp k e.1 = .lt := by
  obtain ⟨hl, hr, hlr⟩ := List.pairwise_append.1 h
  obtain ⟨hk, hr⟩ := List.pairwise_cons.1 hr
  exact ⟨hl, hr, fun e he => hlr e he (k, v) (by simp), hk⟩

/-- Everything left of a node lies below a key that does not lie below the node. -/
private theorem gt_of_mem_left [TransCmp cmp] {l : List (α × β)} {k k' : α}
    (hl : ∀ e ∈ l, cmp e.1 k' = .lt) (h : cmp k k' ≠ .lt) : ∀ e ∈ l, cmp k e.1 = .gt := by
  intro e he
  have hlt := hl e he
  have : cmp k' k ≠ .gt := fun hg => h (OrientedCmp.lt_of_gt hg)
  apply OrientedCmp.gt_of_lt
  cases hk : cmp k' k with
  | lt => exact TransCmp.lt_trans hlt hk
  | eq => exact TransCmp.lt_of_lt_of_eq hlt hk
  | gt => exact absurd hk this

theorem toList_insert [TransCmp cmp] {t : Treap α β} (h : t.Ordered cmp) (p : UInt64) (k : α)
    (v : β) :
    (t.insert cmp p k v).toList =
      upsert (byKey cmp) (fun e => (e.1, v)) (k, v) t.toList := by
  induction t with
  | leaf => rfl
  | node l q k' v' r ihl ihr =>
    obtain ⟨hl, hr, hlk, hkr⟩ := h.parts
    unfold insert
    rw [toList]
    split
    · rename_i hk
      rw [toList_nodeLeft, ihl hl]
      exact (@upsert_append_of_lt _ (byKey cmp) _ (k, v) (k', v') hk _ _).symm
    · rename_i hk
      rw [@upsert_append_of_gt _ (byKey cmp) _ (k, v) _ (gt_of_mem_left hlk (by simp [hk]))]
      simp [upsert, byKey, hk, toList]
    · rename_i hk
      rw [@upsert_append_of_gt _ (byKey cmp) _ (k, v) _ (gt_of_mem_left hlk (by simp [hk]))]
      simp [upsert, byKey, hk, ihr hr]

theorem Ordered.insert [TransCmp cmp] {t : Treap α β} (h : t.Ordered cmp) (p : UInt64) (k : α)
    (v : β) : (t.insert cmp p k v).Ordered cmp := by
  unfold Ordered at *
  rw [toList_insert h]
  refine sorted_upsert (fun b _ => ?_) h
  exact @ReflCmp.compare_self α cmp _ b.1

theorem get?_eq_find? [TransCmp cmp] {t : Treap α β} (h : t.Ordered cmp) (k : α) :
    t.get? cmp k = (t.toList.find? fun e => cmp k e.1 == .eq).map Prod.snd := by
  induction t with
  | leaf => rfl
  | node l q k' v' r ihl ihr =>
    obtain ⟨hl, hr, hlk, hkr⟩ := h.parts
    have left (hk : cmp k k' ≠ .lt) : l.toList.find? (fun e => cmp k e.1 == .eq) = none := by
      rw [List.find?_eq_none]
      intro e he
      simp [gt_of_mem_left hlk hk e he]
    unfold get?
    rw [toList, List.find?_append]
    split
    · rename_i hk
      have right : r.toList.find? (fun e => cmp k e.1 == .eq) = none := by
        rw [List.find?_eq_none]
        intro e he
        simp [TransCmp.lt_trans hk (hkr e he)]
      simp [ihl hl, hk, right]
    · rename_i hk
      simp [left (by simp [hk]), hk]
    · rename_i hk
      simp [left (by simp [hk]), hk, ihr hr]

/-- Values do not matter for the order of keys. -/
theorem map_fst_modify (k : α) (f : β → β) (t : Treap α β) :
    (t.modify cmp k f).toList.map Prod.fst = t.toList.map Prod.fst := by
  induction t with
  | leaf => rfl
  | node l q k' v' r ihl ihr => unfold modify; split <;> simp_all [toList]

theorem Ordered.modify {t : Treap α β} (h : t.Ordered cmp) (k : α) (f : β → β) :
    (t.modify cmp k f).Ordered cmp := by
  have key (l : List (α × β)) :
      Sorted (byKey cmp) l ↔ (l.map Prod.fst).Pairwise fun a b => cmp a b = .lt := by
    rw [List.pairwise_map]
    rfl
  unfold Ordered at *
  rw [key] at *
  rwa [map_fst_modify]

/-- Changing the value under a key changes the entry that stands in the list. -/
theorem toList_modify [TransCmp cmp] {t : Treap α β} (h : t.Ordered cmp) (k : α) (f : β → β) :
    (t.modify cmp k f).toList =
      t.toList.map fun e => if cmp k e.1 = .eq then (e.1, f e.2) else e := by
  have same {l : List (α × β)} (hl : ∀ e ∈ l, cmp k e.1 ≠ .eq) :
      (l.map fun e => if cmp k e.1 = .eq then (e.1, f e.2) else e) = l := by
    conv => rhs; rw [← List.map_id l]
    exact List.map_congr_left fun e he => by simp [hl e he]
  induction t with
  | leaf => rfl
  | node l q k' v' r ihl ihr =>
    obtain ⟨hl, hr, hlk, hkr⟩ := h.parts
    unfold modify
    rw [toList, List.map_append, List.map_cons]
    split
    · rename_i hk
      rw [same (l := r.toList) fun e he => by simp [TransCmp.lt_trans hk (hkr e he)]]
      simp [toList, ihl hl, hk]
    · rename_i hk
      have hgt := gt_of_mem_left (k := k) hlk (by simp [hk])
      rw [same (l := l.toList) fun e he => by simp [hgt e he],
        same (l := r.toList) fun e he => by simp [TransCmp.lt_of_eq_of_lt hk (hkr e he)]]
      simp [toList, hk]
    · rename_i hk
      have hgt := gt_of_mem_left (k := k) hlk (by simp [hk])
      rw [same (l := l.toList) fun e he => by simp [hgt e he]]
      simp [toList, ihr hr, hk]

end Treap

end ProcessCalculus
