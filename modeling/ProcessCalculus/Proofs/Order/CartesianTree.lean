import Mathlib.Data.Tree.Basic
import Mathlib.Data.List.Basic

/-!
# Cartesian trees

A binary tree is heap ordered by a relation if every node is related to all nodes below it. For an asymmetric relation
there is at most one such tree with given nodes from left to right, and if the relation is a total order on them, the
Cartesian tree of the sequence is the one.

* `BinaryTree.inorder`, `BinaryTree.Heaped`: the nodes from left to right, and heap order.
* `BinaryTree.eq_of_heaped`: uniqueness.
* `BinaryTree.push`, `BinaryTree.cartesian`: the Cartesian tree of a sequence, built from left to right.
* `BinaryTree.inorder_cartesian`, `BinaryTree.heaped_cartesian`: existence.
-/

namespace BinaryTree

variable {μ ν : Type} {r s : μ → μ → Prop} {t t' : BinaryTree μ} {x y : μ} {l : List μ}

/-- The nodes from left to right. -/
def inorder : BinaryTree μ → List μ
  | nil => []
  | node x left right => left.inorder ++ x :: right.inorder

/-- Every node is related to all nodes below it. -/
def Heaped (r : μ → μ → Prop) : BinaryTree μ → Prop
  | nil => True
  | node x left right =>
    (∀ y ∈ left.inorder, r x y) ∧ (∀ y ∈ right.inorder, r x y) ∧ left.Heaped r ∧ right.Heaped r

@[simp] theorem inorder_map (f : μ → ν) (t : BinaryTree μ) : (t.map f).inorder = t.inorder.map f := by
  induction t with
  | nil => rfl
  | node x left right ihl ihr => simp [map, inorder, ihl, ihr]

@[simp] theorem height_map (f : μ → ν) (t : BinaryTree μ) : (t.map f).height = t.height := by
  induction t with
  | nil => rfl
  | node x left right ihl ihr => simp [map, ihl, ihr]

theorem heaped_map {f : μ → ν} {q : ν → ν → Prop} : (t.map f).Heaped q ↔ t.Heaped fun x y => q (f x) (f y) := by
  induction t with
  | nil => rfl
  | node x left right ihl ihr => simp [map, Heaped, ihl, ihr]

/-- The relation may be replaced by one that follows from it for the nodes of the tree. -/
theorem Heaped.imp_of_mem (h : t.Heaped r) (hrs : ∀ x ∈ t.inorder, ∀ y ∈ t.inorder, r x y → s x y) : t.Heaped s := by
  induction t with
  | nil => trivial
  | node x left right ihl ihr =>
    obtain ⟨hxl, hxr, hl, hr⟩ := h
    have hx : x ∈ (node x left right).inorder := List.mem_append_right _ List.mem_cons_self
    have hleft {y : μ} (hy : y ∈ left.inorder) : y ∈ (node x left right).inorder := List.mem_append_left _ hy
    have hright {y : μ} (hy : y ∈ right.inorder) : y ∈ (node x left right).inorder :=
      List.mem_append_right _ (List.mem_cons_of_mem _ hy)
    exact ⟨fun y hy => hrs x hx y (hleft hy) (hxl y hy), fun y hy => hrs x hx y (hright hy) (hxr y hy),
      ihl hl fun y hy z hz => hrs y (hleft hy) z (hleft hz), ihr hr fun y hy z hz => hrs y (hright hy) z (hright hz)⟩

/-- The root is related to all other nodes. -/
theorem Heaped.eq_or_of_mem {left right : BinaryTree μ} (h : (node x left right).Heaped r)
    (hy : y ∈ (node x left right).inorder) : y = x ∨ r x y := by
  rw [inorder, List.mem_append, List.mem_cons] at hy
  rcases hy with hy | hy | hy
  · exact .inr (h.1 y hy)
  · exact .inl hy
  · exact .inr (h.2.1 y hy)

/-- Heap order determines a tree with given nodes from left to right. Its root is the node that is related to all
others. -/
theorem eq_of_heaped (hasymm : ∀ x y, r x y → ¬ r y x) (ht : t.Heaped r) (ht' : t'.Heaped r)
    (h : t.inorder = t'.inorder) : t = t' := by
  induction t generalizing t' with
  | nil =>
    cases t' with
    | nil => rfl
    | node => simp [inorder] at h
  | node x left right ihl ihr =>
    cases t' with
    | nil => simp [inorder] at h
    | node x' left' right' =>
      have hx : x ∈ (node x' left' right').inorder := h ▸ List.mem_append_right _ List.mem_cons_self
      have hx' : x' ∈ (node x left right).inorder := h ▸ List.mem_append_right _ List.mem_cons_self
      obtain rfl : x' = x := by
        rcases ht.eq_or_of_mem hx' with heq | hrel
        · exact heq
        · rcases ht'.eq_or_of_mem hx with heq | hrel'
          · exact heq.symm
          · exact absurd hrel' (hasymm _ _ hrel)
      -- the root is none of the nodes left of it, so the two sequences are divided at one place
      have hnot {tree : BinaryTree μ} (hroot : ∀ y ∈ tree.inorder, r x' y) : x' ∉ tree.inorder := fun hmem =>
        hasymm _ _ (hroot x' hmem) (hroot x' hmem)
      obtain ⟨hleft, hright⟩ := (List.append_cons_inj_of_notMem (hnot ht.1) (hnot ht.2.1)).1 h
      rw [ihl ht.2.2.1 ht'.2.2.1 hleft, ihr ht.2.2.2 ht'.2.2.2 hright.2]

variable [DecidableRel r]

/-- Puts a node at the right end of the tree. What is not related to it on the way down becomes its left subtree. -/
def push (r : μ → μ → Prop) [DecidableRel r] (x : μ) : BinaryTree μ → BinaryTree μ
  | nil => node x nil nil
  | node y left right => if r y x then node y left (right.push r x) else node x (node y left right) nil

/-- The Cartesian tree of a sequence. -/
def cartesian (r : μ → μ → Prop) [DecidableRel r] (l : List μ) : BinaryTree μ :=
  l.foldl (fun t x => t.push r x) nil

@[simp] theorem inorder_push (x : μ) (t : BinaryTree μ) : (t.push r x).inorder = t.inorder ++ [x] := by
  induction t with
  | nil => rfl
  | node y left right _ ihr =>
    unfold push
    split
    · simp [inorder, ihr]
    · simp [inorder]

theorem Heaped.push (htrans : ∀ x y z, r x y → r y z → r x z) (h : t.Heaped r)
    (hx : ∀ y ∈ t.inorder, r y x ∨ r x y) : (t.push r x).Heaped r := by
  induction t with
  | nil => simp [BinaryTree.push, Heaped, inorder]
  | node y left right _ ihr =>
    have hy : y ∈ (node y left right).inorder := List.mem_append_right _ List.mem_cons_self
    unfold BinaryTree.push
    split
    · rename_i hyx
      have hright : (right.push r x).Heaped r :=
        ihr h.2.2.2 fun z hz => hx z (List.mem_append_right _ (List.mem_cons_of_mem _ hz))
      refine ⟨h.1, fun z hz => ?_, h.2.2.1, hright⟩
      rw [inorder_push, List.mem_append, List.mem_singleton] at hz
      rcases hz with hz | rfl
      · exact h.2.1 z hz
      · exact hyx
    · rename_i hyx
      have hxy : r x y := (hx y hy).resolve_left hyx
      refine ⟨fun z hz => ?_, nofun, h, trivial⟩
      rcases h.eq_or_of_mem hz with rfl | hyz
      · exact hxy
      · exact htrans x y z hxy hyz

/-- The nodes of a Cartesian tree are the elements of the sequence, from left to right. -/
theorem inorder_cartesian (r : μ → μ → Prop) [DecidableRel r] (l : List μ) : (cartesian r l).inorder = l := by
  have hfold (l : List μ) (t : BinaryTree μ) : (l.foldl (fun t x => t.push r x) t).inorder = t.inorder ++ l := by
    induction l generalizing t with
    | nil => simp
    | cons x l ih => simp [ih]
  exact hfold l nil

/-- A Cartesian tree is heap ordered, if of any two elements one is related to the other. -/
theorem heaped_cartesian (htrans : ∀ x y z, r x y → r y z → r x z) (hl : l.Pairwise fun y x => r y x ∨ r x y) :
    (cartesian r l).Heaped r := by
  have hfold (l : List μ) (t : BinaryTree μ) (ht : t.Heaped r)
      (hl : (t.inorder ++ l).Pairwise fun y x => r y x ∨ r x y) : (l.foldl (fun t x => t.push r x) t).Heaped r := by
    induction l generalizing t with
    | nil => exact ht
    | cons x l ih =>
      refine ih (t.push r x) (ht.push htrans fun y hy => ?_) ?_
      · exact (List.pairwise_append.1 hl).2.2 y hy x List.mem_cons_self
      · rwa [inorder_push, ← List.append_cons]
  exact hfold l nil trivial hl

end BinaryTree
