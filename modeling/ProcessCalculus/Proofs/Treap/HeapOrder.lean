import ProcessCalculus.Proofs.Order.CartesianTree
import ProcessCalculus.Treap.Represents

/-!
# Heap order of treaps

A new key is put at a leaf and turned up while its priority is higher than that of its parent. This restores heap order
for any order of the nodes in which higher priorities come first, provided that it puts the new node behind all nodes
of the same priority. Where a key is there already, nothing is turned.

* `Treap.shape`: the tree without its values, which says whether it is a search tree.
* `Treap.toward_induction`: induction along the way to a key.
* `Treap.shape_insert_of_found`: a known key leaves the shape as it is.
* `Treap.heaped_insert`: a new key leaves the tree in heap order.
-/

namespace ProcessCalculus

open Std

namespace Treap

variable {α β : Type}

/-- The priorities and the keys, in the shape of the tree. -/
def shape : Treap α β → BinaryTree (UInt64 × α)
  | leaf => .nil
  | node l p k _ r => .node (p, k) l.shape r.shape

theorem height_shape (t : Treap α β) : t.shape.height = t.height := by
  induction t with
  | leaf => rfl
  | node l p k v r ihl ihr => simp [shape, height, ihl, ihr]

variable {cmp : α → α → Ordering} {side : Side} {t u : Treap α β} {p q : UInt64} {k k' : α} {v v' : β}
  {m : UInt64 × α} {r : UInt64 × α → UInt64 × α → Prop}

theorem keys_shape (t : Treap α β) : t.shape.inorder.map Prod.snd = t.toList.map Prod.fst := by
  induction t with
  | leaf => rfl
  | node l p k v r ihl ihr => simp [shape, toList, BinaryTree.inorder, ihl, ihr]

theorem ordered_iff : t.Ordered cmp ↔ t.shape.inorder.Pairwise fun a b => cmp a.2 b.2 = .lt := by
  have hkeys : (t.toList.map Prod.fst).Pairwise (fun a b => cmp a b = .lt) ↔ t.Ordered cmp := List.pairwise_map
  rw [← hkeys, ← keys_shape, List.pairwise_map]

theorem isSome_get?_iff [TransCmp cmp] (h : t.Ordered cmp) (k : α) :
    (t.get? cmp k).isSome ↔ ∃ key ∈ t.shape.inorder.map Prod.snd, cmp k key = .eq := by
  rw [get?_eq_find? h, keys_shape]
  simp

theorem mem_shape_joined : m ∈ (joined side t p k v u).shape.inorder ↔
    m = (p, k) ∨ m ∈ t.shape.inorder ∨ m ∈ u.shape.inorder := by
  cases side
  · simp only [joined, shape, BinaryTree.inorder, List.mem_append, List.mem_cons]
    tauto
  · simp only [joined, shape, BinaryTree.inorder, List.mem_append, List.mem_cons]
    tauto

theorem heaped_shape_joined : (joined side t p k v u).shape.Heaped r ↔
    (∀ m ∈ t.shape.inorder, r (p, k) m) ∧ (∀ m ∈ u.shape.inorder, r (p, k) m) ∧ t.shape.Heaped r ∧
      u.shape.Heaped r := by
  cases side
  · rfl
  · show _ ∧ _ ∧ _ ∧ _ ↔ _
    tauto

/-- A tree that is no leaf, seen from one of the sides. -/
private theorem exists_joined (side : Side) (ht : t ≠ leaf) : ∃ a q k v b, t = joined side a q k v b := by
  cases t with
  | leaf => exact absurd rfl ht
  | node l q k v r =>
    cases side with
    | left => exact ⟨l, q, k, v, r, rfl⟩
    | right => exact ⟨r, q, k, v, l, rfl⟩

/-- The root of a new subtree is turned up, or its priority is not higher. -/
theorem lifted_cases (side : Side) (t : Treap α β) (p : UInt64) (k : α) (v : β) (u : Treap α β) :
    (∃ a q k' v' b, t = joined side a q k' v' b ∧ p < q ∧
      lifted side t p k v u = joined side a q k' v' (joined side b p k v u)) ∨
    lifted side t p k v u = joined side t p k v u ∧
      (t = leaf ∨ ∃ a q k' v' b, t = joined side a q k' v' b ∧ ¬ p < q) := by
  by_cases ht : t = leaf
  · subst ht
    refine .inr ⟨?_, .inl rfl⟩
    cases side <;> rfl
  · obtain ⟨a, q, k', v', b, rfl⟩ := exists_joined side ht
    by_cases hlt : p < q
    · exact .inl ⟨a, q, k', v', b, rfl, hlt, lifted_of_gt hlt⟩
    · exact .inr ⟨lifted_of_not_gt hlt, .inr ⟨a, q, k', v', b, rfl, hlt⟩⟩

theorem mem_shape_lifted : m ∈ (lifted side t p k v u).shape.inorder ↔
    m = (p, k) ∨ m ∈ t.shape.inorder ∨ m ∈ u.shape.inorder := by
  rcases lifted_cases side t p k v u with ⟨a, q, k', v', b, rfl, -, hlifted⟩ | ⟨hlifted, -⟩
  · rw [hlifted, mem_shape_joined, mem_shape_joined, mem_shape_joined]
    tauto
  · rw [hlifted, mem_shape_joined]

theorem priority_le_of_mem (hweight : ∀ m m', r m m' → m'.1 ≤ m.1) (ht : (joined side t p k v u).shape.Heaped r)
    (hm : m ∈ (joined side t p k v u).shape.inorder) : m.1 ≤ p := by
  rw [heaped_shape_joined] at ht
  rcases mem_shape_joined.1 hm with rfl | hm | hm
  · exact UInt64.le_refl p
  · exact hweight _ _ (ht.1 m hm)
  · exact hweight _ _ (ht.2.1 m hm)

/-- Induction along the way to a key: to a leaf, or to the node of an equal key. -/
theorem toward_induction {P : Treap α β → Prop} (cmp : α → α → Ordering) (k : α) (leaf : P leaf)
    (equal : ∀ l p k' v' r, cmp k k' = .eq → P (node l p k' v' r))
    (toward : ∀ side a p k' v' b, Side.toward (cmp k k') = some side → P a → P (joined side a p k' v' b))
    (t : Treap α β) : P t := by
  induction t with
  | leaf => exact leaf
  | node l p k' v' r ihl ihr =>
    cases hk : cmp k k' with
    | lt => exact toward .left l p k' v' r (by rw [hk]; rfl) ihl
    | eq => exact equal l p k' v' r hk
    | gt => exact toward .right r p k' v' l (by rw [hk]; rfl) ihr

/-- Where a key is known, an insertion changes no more than its value: no priority is higher than one above it. -/
theorem shape_insert_of_found (hweight : ∀ m m', r m m' → m'.1 ≤ m.1) (ht : t.shape.Heaped r) {found : β}
    (hget : t.get? cmp k = some found) : (t.insert cmp q k v).shape = t.shape := by
  induction t using toward_induction cmp k with
  | leaf => cases hget
  | equal l p k' v' r hk =>
    rw [insert, hk]
    rfl
  | toward side a p k' v' b hside ih =>
    rw [get?_joined hside] at hget
    rw [heaped_shape_joined] at ht
    have hsame := ih ht.2.2.1 hget
    rw [insert_joined hside]
    rcases lifted_cases side (a.insert cmp q k v) p k' v' b with ⟨a₁, q₁, k₁, v₁, b₁, heq, hlt, -⟩ | ⟨heq, -⟩
    · have hroot : (q₁, k₁) ∈ a.shape.inorder := by
        rw [← hsame, heq, mem_shape_joined]
        exact .inl rfl
      exact absurd hlt (UInt64.not_lt.2 (hweight _ _ (ht.1 _ hroot)))
    · rw [heq]
      cases side with
      | left => simp only [joined, shape, hsame]
      | right => simp only [joined, shape, hsame]

/-- A new key is entered in heap order. By induction along the way to its place: the root of a subtree that is turned
up is the new node, since all others are below the old root. -/
theorem heaped_insert (htrans : ∀ m m' m'', r m m' → r m' m'' → r m m'') (hirrefl : ∀ m, ¬ r m m)
    (hweight : ∀ m m', r m m' → m'.1 ≤ m.1) (ht : t.shape.Heaped r) (hget : t.get? cmp k = none)
    (hbefore : ∀ m ∈ t.shape.inorder, m.1 < q → r (q, k) m)
    (hbehind : ∀ m ∈ t.shape.inorder, ¬ m.1 < q → r m (q, k)) :
    (t.insert cmp q k v).shape.Heaped r ∧
      ∀ m, m ∈ (t.insert cmp q k v).shape.inorder ↔ m = (q, k) ∨ m ∈ t.shape.inorder := by
  induction t using toward_induction cmp k with
  | leaf => simp [insert, shape, BinaryTree.Heaped, BinaryTree.inorder]
  | equal l p k' v' r hk =>
    rw [get?, hk] at hget
    cases hget
  | toward side a p k' v' b hside ih =>
    rw [get?_joined hside] at hget
    rw [heaped_shape_joined] at ht
    obtain ⟨hpa, hpb, ha, hb⟩ := ht
    have hroot : (p, k') ∈ (joined side a p k' v' b).shape.inorder := mem_shape_joined.2 (.inl rfl)
    have hsub {m : UInt64 × α} (hm : m ∈ a.shape.inorder) : m ∈ (joined side a p k' v' b).shape.inorder :=
      mem_shape_joined.2 (.inr (.inl hm))
    obtain ⟨ha', hmem⟩ := ih ha hget (fun m hm => hbefore m (hsub hm)) fun m hm => hbehind m (hsub hm)
    rw [insert_joined hside]
    refine ⟨?_, fun m => ?_⟩
    · rcases lifted_cases side (a.insert cmp q k v) p k' v' b with
        ⟨a₁, q₁, k₁, v₁, b₁, heq, hlt, hlifted⟩ | ⟨hlifted, hle⟩
      · rw [heq, heaped_shape_joined] at ha'
        obtain ⟨hqa, hqb, ha₁, hb₁⟩ := ha'
        simp only [heq, mem_shape_joined] at hmem
        have hnew : (q₁, k₁) = (q, k) := by
          rcases (hmem _).1 (.inl rfl) with hnew | hold
          · exact hnew
          · exact absurd hlt (UInt64.not_lt.2 (hweight _ _ (hpa _ hold)))
        have hqp : r (q₁, k₁) (p, k') := hnew ▸ hbefore _ hroot (by cases hnew; exact hlt)
        rw [hlifted, heaped_shape_joined, heaped_shape_joined]
        refine ⟨hqa, fun m hm => ?_, ha₁, fun m hm => ?_, hpb, hb₁, hb⟩
        · rcases mem_shape_joined.1 hm with rfl | hm | hm
          · exact hqp
          · exact hqb m hm
          · exact htrans _ _ _ hqp (hpb m hm)
        · rcases (hmem m).1 (.inr (.inr hm)) with rfl | hold
          · exact absurd (hqb _ hm) (hnew ▸ hirrefl _)
          · exact hpa m hold
      · rw [hlifted, heaped_shape_joined]
        refine ⟨fun m hm => ?_, hpb, ha', hb⟩
        rcases (hmem m).1 hm with rfl | hold
        · refine hbehind _ hroot ?_
          -- no priority in the new subtree is higher than that of its root
          rcases hle with hleaf | ⟨a₁, q₁, k₁, v₁, b₁, heq, hle⟩
          · rw [hleaf] at hm
            cases hm
          · rw [heq] at hm ha'
            have hbelow := priority_le_of_mem hweight ha' hm
            exact fun hlt => hle (UInt64.lt_of_lt_of_le hlt hbelow)
        · exact hpa m hold
    · rw [mem_shape_lifted, hmem, mem_shape_joined]
      tauto

end Treap

end ProcessCalculus
