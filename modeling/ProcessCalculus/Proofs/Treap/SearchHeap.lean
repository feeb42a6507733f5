import Mathlib.Data.List.Sort
import ProcessCalculus.Order.SortedList
import ProcessCalculus.Proofs.Order.CartesianTree

/-!
# Search trees in heap order

Given keys and priorities by position, there is one tree of positions that is a search tree by the keys and in heap
order by the priorities, where of equal priorities the one that was entered earlier comes first. This is the Cartesian
tree of the priorities in the order of the keys.

* `TreapStore.Heavier`, `TreapStore.IsTreap`: heap order, and the trees of positions in question.
* `TreapStore.IsTreap.unique`: there is at most one.
* `TreapStore.keySorted`, `TreapStore.isTreap_cartesian`: the Cartesian tree is one.
* `TreapStore.IsTreap.map_priority_eq`: priorities that differ determine the shape without the positions.
-/

namespace ProcessCalculus

open Std

variable {α : Type}

namespace TreapStore

/-! ### Search trees in heap order -/

/-- Of two priorities with the positions of their keys, the first comes before the second: it is higher, or it is equal
and was entered earlier. -/
def Heavier (a b : UInt64 × Nat) : Prop :=
  b.1 < a.1 ∨ b.1 = a.1 ∧ a.2 < b.2

instance : DecidableRel Heavier :=
  fun a b => inferInstanceAs (Decidable (b.1 < a.1 ∨ b.1 = a.1 ∧ a.2 < b.2))

/-- The key at the first position is less than the one at the second position. -/
def Precedes (cmp : α → α → Ordering) (marks : List (UInt64 × α)) (i j : Nat) : Prop :=
  ∃ a b, marks[i]? = some a ∧ marks[j]? = some b ∧ cmp a.2 b.2 = .lt

/-- The priority at the first position comes before the one at the second position. -/
def Outweighs (marks : List (UInt64 × α)) (i j : Nat) : Prop :=
  ∃ a b, marks[i]? = some a ∧ marks[j]? = some b ∧ Heavier (a.1, i) (b.1, j)

/-- The tree has every position once, and is a search tree by the keys and in heap order by the priorities. -/
structure IsTreap (cmp : α → α → Ordering) (marks : List (UInt64 × α)) (T : BinaryTree Nat) : Prop where
  perm : T.inorder.Perm (List.range marks.length)
  sorted : T.inorder.Pairwise (Precedes cmp marks)
  heaped : T.Heaped (Outweighs marks)

/-- The priorities with their positions, in the order of the keys. -/
def keySorted (cmp : α → α → Ordering) (marks : List (UInt64 × α)) : List (UInt64 × Nat) :=
  (marks.zipIdx.mergeSort fun e e' => (cmp e.1.2 e'.1.2).isLE).map fun e => (e.1.1, e.2)

/-- No two keys are equal. -/
def Distinct (cmp : α → α → Ordering) (marks : List (UInt64 × α)) : Prop :=
  marks.Pairwise fun a b => cmp a.2 b.2 ≠ .eq

variable {cmp : α → α → Ordering} {marks marks' : List (UInt64 × α)} {T T' : BinaryTree Nat} {i j : Nat}

theorem Heavier.trans {a b c : UInt64 × Nat} (h : Heavier a b) (h' : Heavier b c) : Heavier a c := by
  unfold Heavier at *
  simp only [UInt64.lt_iff_toNat_lt, ← UInt64.toNat_inj] at *
  omega

theorem Heavier.asymm {a b : UInt64 × Nat} (h : Heavier a b) : ¬ Heavier b a := by
  unfold Heavier at *
  simp only [UInt64.lt_iff_toNat_lt, ← UInt64.toNat_inj] at *
  omega

theorem Heavier.le {a b : UInt64 × Nat} (h : Heavier a b) : b.1 ≤ a.1 := by
  unfold Heavier at h
  simp only [UInt64.lt_iff_toNat_lt, UInt64.le_iff_toNat_le, ← UInt64.toNat_inj] at *
  omega

theorem heavier_or_heavier {a b : UInt64 × Nat} (h : a.2 ≠ b.2) : Heavier a b ∨ Heavier b a := by
  unfold Heavier
  simp only [UInt64.lt_iff_toNat_lt, ← UInt64.toNat_inj]
  omega

/-- What relates the marks at two positions only one way does not relate them the other way. -/
private theorem not_related_back {R R' : UInt64 × α → UInt64 × α → Prop} (hR : ∀ a b, R a b → ¬ R' b a)
    (h : ∃ a b, marks[i]? = some a ∧ marks[j]? = some b ∧ R a b) :
    ¬ ∃ b a, marks[j]? = some b ∧ marks[i]? = some a ∧ R' b a := by
  obtain ⟨a, b, ha, hb, hab⟩ := h
  rintro ⟨b', a', hb', ha', hba⟩
  rw [ha, Option.some.injEq] at ha'
  rw [hb, Option.some.injEq] at hb'
  subst ha' hb'
  exact hR a b hab hba

theorem Precedes.asymm [OrientedCmp cmp] (h : Precedes cmp marks i j) : ¬ Precedes cmp marks j i :=
  not_related_back (fun a b hlt hlt' => by simp [OrientedCmp.gt_of_lt hlt] at hlt') h

theorem Outweighs.asymm (h : Outweighs marks i j) : ¬ Outweighs marks j i :=
  not_related_back (fun _ _ => Heavier.asymm) h

/-- Keys and priorities determine the tree. -/
theorem IsTreap.unique [OrientedCmp cmp] (h : IsTreap cmp marks T) (h' : IsTreap cmp marks T') : T = T' := by
  refine BinaryTree.eq_of_heaped (fun _ _ => Outweighs.asymm) h.heaped h'.heaped ?_
  exact List.Perm.eq_of_pairwise (fun _ _ _ _ hij hji => absurd hji hij.asymm) h.sorted h'.sorted
    (h.perm.trans h'.perm.symm)

theorem Distinct.compare_ne [OrientedCmp cmp] (h : Distinct cmp marks) {a b : UInt64 × α} (ha : marks[i]? = some a)
    (hb : marks[j]? = some b) (hij : i ≠ j) : cmp a.2 b.2 ≠ .eq := by
  obtain ⟨hi, rfl⟩ := List.getElem?_eq_some_iff.1 ha
  obtain ⟨hj, rfl⟩ := List.getElem?_eq_some_iff.1 hb
  have hpairs := List.pairwise_iff_getElem.1 h
  rcases Nat.lt_or_gt_of_ne hij with hlt | hlt
  · exact hpairs i j hi hj hlt
  · exact fun heq => hpairs j i hj hi hlt (OrientedCmp.eq_symm heq)

theorem exists_of_mem_keySorted {x : UInt64 × Nat} (hx : x ∈ keySorted cmp marks) :
    ∃ a, marks[x.2]? = some a ∧ a.1 = x.1 := by
  obtain ⟨e, he, rfl⟩ := List.mem_map.1 hx
  exact ⟨e.1, List.mem_zipIdx_iff_getElem?.1 ((List.mergeSort_perm _ _).mem_iff.1 he), rfl⟩

theorem perm_keySorted (cmp : α → α → Ordering) (marks : List (UInt64 × α)) :
    ((keySorted cmp marks).map Prod.snd).Perm (List.range marks.length) := by
  have hperm := (List.mergeSort_perm marks.zipIdx fun e e' => (cmp e.1.2 e'.1.2).isLE).map Prod.snd
  rw [List.zipIdx_map_snd, ← List.range_eq_range'] at hperm
  rwa [keySorted, List.map_map]

theorem sorted_keySorted [TransCmp cmp] (h : Distinct cmp marks) :
    ((keySorted cmp marks).map Prod.snd).Pairwise (Precedes cmp marks) := by
  let le (e e' : (UInt64 × α) × Nat) : Bool := (cmp e.1.2 e'.1.2).isLE
  have htrans (a b c : (UInt64 × α) × Nat) (hab : le a b = true) (hbc : le b c = true) : le a c = true :=
    TransCmp.isLE_trans hab hbc
  have htotal (a b : (UInt64 × α) × Nat) : (le a b || le b a) = true := by
    cases hab : cmp a.1.2 b.1.2 with
    | gt => simp [le, hab, OrientedCmp.lt_of_gt hab]
    | lt | eq => simp [le, hab]
  have hsorted := List.pairwise_mergeSort htrans htotal marks.zipIdx
  have hnodup : (marks.zipIdx.mergeSort le).Pairwise fun e e' => e.2 ≠ e'.2 := by
    have hrange := (perm_keySorted cmp marks).nodup_iff.2 List.nodup_range
    rw [keySorted, List.map_map] at hrange
    exact List.pairwise_map.1 hrange
  rw [keySorted, List.map_map, List.pairwise_map]
  refine (hsorted.and hnodup).imp_of_mem fun {e e'} he he' hrel => ?_
  have hmark := List.mem_zipIdx_iff_getElem?.1 ((List.mergeSort_perm _ _).mem_iff.1 he)
  have hmark' := List.mem_zipIdx_iff_getElem?.1 ((List.mergeSort_perm _ _).mem_iff.1 he')
  have hle : (cmp e.1.2 e'.1.2).isLE = true := hrel.1
  refine ⟨e.1, e'.1, hmark, hmark', ?_⟩
  cases hcmp : cmp e.1.2 e'.1.2 with
  | lt => rfl
  | eq => exact absurd hcmp (h.compare_ne hmark hmark' hrel.2)
  | gt => simp [hcmp] at hle

/-- The Cartesian tree of the priorities in the order of the keys is the search tree in heap order. -/
theorem isTreap_cartesian [TransCmp cmp] (h : Distinct cmp marks) :
    IsTreap cmp marks ((BinaryTree.cartesian Heavier (keySorted cmp marks)).map Prod.snd) where
  perm := by
    rw [BinaryTree.inorder_map, BinaryTree.inorder_cartesian]
    exact perm_keySorted cmp marks
  sorted := by
    rw [BinaryTree.inorder_map, BinaryTree.inorder_cartesian]
    exact sorted_keySorted h
  heaped := by
    have hnodup : (keySorted cmp marks).Pairwise fun x y => x.2 ≠ y.2 :=
      List.pairwise_map.1 ((perm_keySorted cmp marks).nodup_iff.2 List.nodup_range)
    have hheaped := BinaryTree.heaped_cartesian (r := Heavier) (fun _ _ _ => Heavier.trans)
      (hnodup.imp heavier_or_heavier)
    rw [BinaryTree.heaped_map]
    refine hheaped.imp_of_mem fun x hx y hy hxy => ?_
    rw [BinaryTree.inorder_cartesian] at hx hy
    obtain ⟨a, ha, hax⟩ := exists_of_mem_keySorted hx
    obtain ⟨b, hb, hby⟩ := exists_of_mem_keySorted hy
    exact ⟨a, b, ha, hb, by rwa [hax, hby]⟩

/-! ### Shapes without positions -/

/-- The same keys have the same priorities, where keys are the same if they are equal for the comparison. -/
def SameMarks (cmp : α → α → Ordering) (marks marks' : List (UInt64 × α)) : Prop :=
  (∀ a ∈ marks, ∃ b ∈ marks', a.1 = b.1 ∧ cmp a.2 b.2 = .eq) ∧
    ∀ b ∈ marks', ∃ a ∈ marks, a.1 = b.1 ∧ cmp a.2 b.2 = .eq

/-- In the order of the keys, priorities that are the same for the same keys stand in the same order. -/
theorem SameMarks.map_fst_eq [TransCmp cmp] (h : SameMarks cmp marks marks')
    (hsorted : marks.Pairwise fun a b => cmp a.2 b.2 = .lt)
    (hsorted' : marks'.Pairwise fun a b => cmp a.2 b.2 = .lt) : marks.map Prod.fst = marks'.map Prod.fst := by
  induction marks generalizing marks' with
  | nil =>
    cases marks' with
    | nil => rfl
    | cons b marks' =>
      obtain ⟨a, ha, -⟩ := h.2 b List.mem_cons_self
      cases ha
  | cons a marks ih =>
    cases marks' with
    | nil =>
      obtain ⟨b, hb, -⟩ := h.1 a List.mem_cons_self
      cases hb
    | cons b marks' =>
      obtain ⟨hleast, hsorted⟩ := List.pairwise_cons.1 hsorted
      obtain ⟨hleast', hsorted'⟩ := List.pairwise_cons.1 hsorted'
      -- the least keys are the same
      have hhead : a.1 = b.1 ∧ cmp a.2 b.2 = .eq := by
        obtain ⟨b₀, hb₀, hprio, heq⟩ := h.1 a List.mem_cons_self
        rcases List.mem_cons.1 hb₀ with rfl | hb₀
        · exact ⟨hprio, heq⟩
        · obtain ⟨a₀, ha₀, -, heq₀⟩ := h.2 b List.mem_cons_self
          have hlt : cmp a.2 b₀.2 = .lt := by
            rcases List.mem_cons.1 ha₀ with rfl | ha₀
            · exact TransCmp.lt_of_eq_of_lt heq₀ (hleast' b₀ hb₀)
            · exact TransCmp.lt_trans (TransCmp.lt_of_lt_of_eq (hleast a₀ ha₀) heq₀) (hleast' b₀ hb₀)
          rw [hlt] at heq
          cases heq
      have htail : SameMarks cmp marks marks' := by
        constructor
        · intro x hx
          obtain ⟨y, hy, hprio, heq⟩ := h.1 x (List.mem_cons_of_mem _ hx)
          rcases List.mem_cons.1 hy with rfl | hy
          · have hlt := TransCmp.lt_of_lt_of_eq (hleast x hx) heq
            rw [hhead.2] at hlt
            cases hlt
          · exact ⟨y, hy, hprio, heq⟩
        · intro y hy
          obtain ⟨x, hx, hprio, heq⟩ := h.2 y (List.mem_cons_of_mem _ hy)
          rcases List.mem_cons.1 hx with rfl | hx
          · have hlt := TransCmp.lt_of_eq_of_lt hhead.2 (hleast' y hy)
            rw [heq] at hlt
            cases hlt
          · exact ⟨x, hx, hprio, heq⟩
      rw [List.map_cons, List.map_cons, hhead.1, ih htail hsorted hsorted']

/-- The priority at a position. -/
def priority? (marks : List (UInt64 × α)) (i : Nat) : Option UInt64 :=
  marks[i]?.map Prod.fst

theorem IsTreap.nodup_priorities (h : IsTreap cmp marks T) :
    (T.inorder.map (priority? marks)).Nodup ↔ (marks.map Prod.fst).Nodup := by
  have hrange : (List.range marks.length).map (priority? marks) = (marks.map Prod.fst).map some := by
    apply List.ext_getElem
    · simp
    · intro i hi hi'
      simp only [List.length_map, List.length_range] at hi
      simp [priority?, hi]
  rw [(h.perm.map (priority? marks)).nodup_iff, hrange, List.nodup_map_iff (Option.some_injective _)]

/-- If priorities differ, positions play no part in heap order. -/
private theorem IsTreap.heaped_priorities (h : IsTreap cmp marks T) (hnodup : (marks.map Prod.fst).Nodup) :
    (T.map (priority? marks)).Heaped fun o o' => ∃ p q, o = some p ∧ o' = some q ∧ q < p := by
  rw [BinaryTree.heaped_map]
  refine h.heaped.imp_of_mem fun i _ j _ => ?_
  rintro ⟨a, b, ha, hb, hlt | ⟨heq, hij⟩⟩
  · exact ⟨a.1, b.1, by rw [priority?, ha]; rfl, by rw [priority?, hb]; rfl, hlt⟩
  · have hi : i < (marks.map Prod.fst).length := by
      rw [List.length_map]
      exact (List.getElem?_eq_some_iff.1 ha).1
    have hsame : (marks.map Prod.fst)[i]? = (marks.map Prod.fst)[j]? := by
      rw [List.getElem?_map, List.getElem?_map, ha, hb, Option.map_some, Option.map_some, heq]
    exact absurd ((List.getElem?_inj hi hnodup).1 hsame) (Nat.ne_of_lt hij)

/-- Where the same priorities stand in the same order, and no two of them are equal, they are in trees of the same
shape. -/
theorem IsTreap.map_priority_eq (h : IsTreap cmp marks T) (h' : IsTreap cmp marks' T')
    (hnodup : (marks.map Prod.fst).Nodup)
    (horder : T.inorder.map (priority? marks) = T'.inorder.map (priority? marks')) :
    T.map (priority? marks) = T'.map (priority? marks') := by
  have hnodup' : (marks'.map Prod.fst).Nodup := by
    rw [← h'.nodup_priorities, ← horder, h.nodup_priorities]
    exact hnodup
  refine BinaryTree.eq_of_heaped ?_ (h.heaped_priorities hnodup) (h'.heaped_priorities hnodup') ?_
  · rintro _ _ ⟨p, q, rfl, rfl, hlt⟩ ⟨q', p', hq, hp, hlt'⟩
    cases hq
    cases hp
    exact UInt64.lt_asymm hlt hlt'
  · rw [BinaryTree.inorder_map, BinaryTree.inorder_map, horder]

end TreapStore

end ProcessCalculus
