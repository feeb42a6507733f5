import Mathlib.Data.List.Perm.Basic
import ProcessCalculus.Proofs.Treap.Positions
import ProcessCalculus.Proofs.Treap.SearchHeap

/-!
# Histories of a stored treap

The shape of a stored treap does not depend on the way in which it came about: each new key draws the next priority, a
known key draws none, and the tree is the only search tree in heap order for the priorities drawn.

* `TreapStore.firstKeys`, `TreapStore.assigned`: the keys of a history, in the order in which they were new, and their
  priorities.
* `TreapStore.Entered`, `TreapStore.Entered.exists_set`: the invariant, and that each entry keeps it.
* `TreapStore.Entered.exists_isTreap`: the tree of positions is the search tree in heap order.
* `TreapStore.setAll_isTreap`: the shape after any history, and after any other one with the same priorities.
-/

namespace ProcessCalculus

open Std

variable {α β : Type}

namespace TreapStore

/-! ### Histories -/

/-- The keys that are there after one more was set. -/
def addKey (cmp : α → α → Ordering) (keys : List α) (k : α) : List α :=
  if keys.any fun key => cmp k key == .eq then keys else keys ++ [k]

/-- The keys of a history, in the order in which they were new. -/
def firstKeys (cmp : α → α → Ordering) (history : List (α × β)) : List α :=
  history.foldl (fun keys e => addKey cmp keys e.1) []

/-- Keys with the outputs of a stream, the `k`-th key with the `k`-th output. -/
def paired (output : Nat → UInt64) (keys : List α) : List (UInt64 × α) :=
  keys.mapIdx fun i k => (output i, k)

/-- The priorities that a history gives to its keys. -/
def assigned (cmp : α → α → Ordering) (output : Nat → UInt64) (history : List (α × β)) : List (UInt64 × α) :=
  paired output (firstKeys cmp history)

/-- Values are put under keys, one after the other. -/
def setAll (cmp : α → α → Ordering) (s : TreapStore α β) (history : List (α × β)) : Option (TreapStore α β) :=
  history.foldlM (fun s e => (s.set cmp e.1 e.2).map Prod.snd) s

variable {cmp : α → α → Ordering} {output : Nat → UInt64} {keys : List α} {s s' : TreapStore α β} {t t' : Treap α β}
  {marks : List (UInt64 × α)} {k : α} {v : β} {replaced : Option β}

theorem map_snd_paired (output : Nat → UInt64) (keys : List α) : (paired output keys).map Prod.snd = keys := by
  apply List.ext_getElem?
  intro i
  rw [paired, List.getElem?_map, List.getElem?_mapIdx, Option.map_map]
  exact Option.map_id_apply

theorem paired_concat (output : Nat → UInt64) (keys : List α) (k : α) :
    paired output (keys ++ [k]) = paired output keys ++ [(output keys.length, k)] :=
  List.mapIdx_concat

theorem addKey_of_exists (h : ∃ key ∈ keys, cmp k key = .eq) : addKey cmp keys k = keys :=
  if_pos (by simpa [List.any_eq_true] using h)

theorem addKey_of_not_exists (h : ¬ ∃ key ∈ keys, cmp k key = .eq) : addKey cmp keys k = keys ++ [k] :=
  if_neg (by simpa [List.any_eq_true] using h)

theorem exists_mem_addKey [TransCmp cmp] {k' : α} (h : cmp k k' = .eq ∨ ∃ key ∈ keys, cmp k key = .eq) :
    ∃ key ∈ addKey cmp keys k', cmp k key = .eq := by
  by_cases hk' : ∃ key ∈ keys, cmp k' key = .eq
  · rw [addKey_of_exists hk']
    rcases h with hkk' | h
    · obtain ⟨key, hmem, heq⟩ := hk'
      exact ⟨key, hmem, TransCmp.eq_trans hkk' heq⟩
    · exact h
  · rw [addKey_of_not_exists hk']
    rcases h with hkk' | ⟨key, hmem, heq⟩
    · exact ⟨k', List.mem_append_right _ List.mem_cons_self, hkk'⟩
    · exact ⟨key, List.mem_append_left _ hmem, heq⟩

/-- Each key of a history is equal to one of its first keys. -/
theorem exists_mem_firstKeys [TransCmp cmp] {history : List (α × β)} (h : ∃ e ∈ history, cmp k e.1 = .eq) :
    ∃ key ∈ firstKeys cmp history, cmp k key = .eq := by
  have hfold (history : List (α × β)) (keys : List α)
      (h : (∃ key ∈ keys, cmp k key = .eq) ∨ ∃ e ∈ history, cmp k e.1 = .eq) :
      ∃ key ∈ history.foldl (fun keys e => addKey cmp keys e.1) keys, cmp k key = .eq := by
    induction history generalizing keys with
    | nil => exact h.resolve_right (by simp)
    | cons e history ih =>
      refine ih (addKey cmp keys e.1) ?_
      rw [List.exists_mem_cons_iff] at h
      rcases h with h | h | h
      · exact .inl (exists_mem_addKey (.inr h))
      · exact .inl (exists_mem_addKey (.inl h))
      · exact .inr h
  exact hfold history [] (.inr h)

/-! ### The invariant -/

open Classical in
/-- Of two nodes with these marks, the first comes before the second in heap order. -/
def Before (marks : List (UInt64 × α)) (a b : UInt64 × α) : Prop :=
  Heavier (a.1, marks.idxOf a) (b.1, marks.idxOf b)

open Classical in
theorem Before.append {a b : UInt64 × α} (h : Before marks a b) (ha : a ∈ marks) (hb : b ∈ marks)
    (marks' : List (UInt64 × α)) : Before (marks ++ marks') a b := by
  unfold Before at *
  rwa [List.idxOf_append_of_mem ha, List.idxOf_append_of_mem hb]

open Classical in
/-- A new node comes after those with the same priority. -/
theorem before_concat {a b : UInt64 × α} (ha : a ∈ marks) (hb : b ∉ marks) (h : b.1 ≤ a.1) :
    Before (marks ++ [b]) a b := by
  unfold Before Heavier
  rw [List.idxOf_append_of_mem ha, List.idxOf_append_of_notMem hb]
  rcases UInt64.lt_or_eq_of_le h with hlt | heq
  · exact .inl hlt
  · exact .inr ⟨heq, Nat.lt_add_right _ (List.idxOf_lt_length_of_mem ha)⟩

/-- The storage holds a search tree in heap order, with the given keys in the order in which they were new, and with
priorities that were drawn in this order. Of its stream, one priority was drawn for each node. -/
structure Entered (cmp : α → α → Ordering) (output : Nat → UInt64) (keys : List α) (s : TreapStore α β)
    (t : Treap α β) : Prop where
  holds : s.Holds t
  ordered : t.Ordered cmp
  marks_eq : s.nodes.marks = paired output keys
  heaped : t.shape.Heaped (Before s.nodes.marks)
  priorities_eq : s.priorities = { output, drawn := s.size }

theorem entered_empty (cmp : α → α → Ordering) (output : Nat → UInt64) :
    Entered cmp output [] ({ priorities := { output } } : TreapStore α β) .leaf where
  holds := holds_empty _
  ordered := List.Pairwise.nil
  marks_eq := rfl
  heaped := trivial
  priorities_eq := rfl

/-- The marks of the nodes are those of the tree. -/
theorem Holds.perm_marks (h : s.Holds t) : t.shape.inorder.Perm s.nodes.marks := by
  obtain ⟨T, -, hperm, hshape⟩ := h.exists_spans
  have hrange : (List.range s.size).map (s.nodes.marks[·]?) = s.nodes.marks.map some := by
    apply List.ext_getElem
    · simp [TreapNodes.length_marks, size]
    · intro i hi hi'
      simp only [List.length_map] at hi'
      simp [hi']
  have hmap := hperm.map (s.nodes.marks[·]?)
  rw [← BinaryTree.inorder_map, hshape, BinaryTree.inorder_map, hrange] at hmap
  exact (List.map_perm_map_iff (Option.some_injective _)).1 hmap

namespace Entered

/-- Keys stand in the tree in increasing order, so no two of them are equal. -/
theorem distinct [TransCmp cmp] (h : Entered cmp output keys s t) : Distinct cmp s.nodes.marks := by
  have hne : t.shape.inorder.Pairwise fun a b => cmp a.2 b.2 ≠ .eq :=
    (Treap.ordered_iff.1 h.ordered).imp fun hlt heq => by simp [hlt] at heq
  exact (h.holds.perm_marks.pairwise_iff fun hab hba => hab (OrientedCmp.eq_symm hba)).1 hne

theorem nodup [TransCmp cmp] (h : Entered cmp output keys s t) : s.nodes.marks.Nodup :=
  h.distinct.imp fun hne heq => hne (by rw [heq]; exact ReflCmp.compare_self)

theorem size_eq (h : Entered cmp output keys s t) : s.size = keys.length := by
  have hlength : s.nodes.marks.length = s.size := TreapNodes.length_marks _
  rw [← hlength, h.marks_eq, paired, List.length_mapIdx]

/-- A key is found in the tree if it was entered. -/
theorem isSome_get?_iff [TransCmp cmp] (h : Entered cmp output keys s t) (k : α) :
    (t.get? cmp k).isSome ↔ ∃ key ∈ keys, cmp k key = .eq := by
  have hkeys : (t.shape.inorder.map Prod.snd).Perm keys := by
    have hperm := h.holds.perm_marks.map Prod.snd
    rwa [h.marks_eq, map_snd_paired] at hperm
  simp only [Treap.isSome_get?_iff h.ordered, hkeys.mem_iff]

/-- An entry for a known key changes neither the marks nor the shape, and draws nothing. -/
theorem exists_overwrite [TransCmp cmp] (h : Entered cmp output keys s t) (hk : ∃ key ∈ keys, cmp k key = .eq) (v : β) :
    ∃ old s' t', s.set cmp k v = some (some old, s') ∧ s'.nodes.marks = s.nodes.marks ∧
      s'.priorities = s.priorities ∧ Entered cmp output keys s' t' := by
  obtain ⟨s', hset, hholds⟩ := h.holds.exists_set cmp k v
  obtain ⟨old, hold⟩ := Option.isSome_iff_exists.1 ((h.isSome_get?_iff k).2 hk)
  rw [hold] at hset
  obtain ⟨hmarks, hpriorities⟩ := marks_set hset
  rw [Option.isSome_some, if_pos rfl, List.append_nil] at hmarks
  rw [Option.isSome_some, if_pos rfl] at hpriorities
  have hshape : (t.insert cmp s.priorities.next.1 k v).shape = t.shape :=
    Treap.shape_insert_of_found (fun _ _ => Heavier.le) h.heaped hold
  have hsize : s'.size = s.size := by
    rw [size, size, ← TreapNodes.length_marks, hmarks, TreapNodes.length_marks]
  refine ⟨old, s', _, hset, hmarks, hpriorities, hholds, h.ordered.insert _ k v, hmarks.trans h.marks_eq, ?_, ?_⟩
  · rw [hshape, hmarks]
    exact h.heaped
  · rw [hpriorities, hsize]
    exact h.priorities_eq

/-- An entry for a new key draws the next priority and puts the key into the tree with it. -/
theorem exists_new [TransCmp cmp] (h : Entered cmp output keys s t) (hk : ¬ ∃ key ∈ keys, cmp k key = .eq) (v : β) :
    ∃ s' t', s.set cmp k v = some (none, s') ∧ Entered cmp output (keys ++ [k]) s' t' := by
  obtain ⟨s', hset, hholds⟩ := h.holds.exists_set cmp k v
  have hget : t.get? cmp k = none := by
    rw [← Option.not_isSome_iff_eq_none, h.isSome_get?_iff]
    exact hk
  have hnext : s.priorities.next = (output s.size, { output, drawn := s.size + 1 }) := by
    rw [h.priorities_eq]
    rfl
  rw [hget] at hset
  rw [hnext] at hholds
  obtain ⟨hmarks, hpriorities⟩ : s'.nodes.marks = s.nodes.marks ++ [(output s.size, k)] ∧
      s'.priorities = { output, drawn := s.size + 1 } := by
    have hset' := marks_set hset
    rwa [hnext] at hset'
  have hold {m : UInt64 × α} (hm : m ∈ t.shape.inorder) : m ∈ s.nodes.marks := h.holds.perm_marks.mem_iff.1 hm
  have hnew : (output s.size, k) ∉ s.nodes.marks := by
    rw [h.marks_eq]
    intro hmem
    have hkey := List.mem_map_of_mem (f := Prod.snd) hmem
    rw [map_snd_paired] at hkey
    exact hk ⟨k, hkey, ReflCmp.compare_self⟩
  have hdrawn := drawn_eq_set hset (congrArg PriorityStream.drawn h.priorities_eq)
  refine ⟨s', _, hset, hholds, h.ordered.insert _ k v, ?_, ?_, ?_⟩
  · rw [hmarks, h.marks_eq, paired_concat, h.size_eq]
  · have hheaped : t.shape.Heaped (Before s'.nodes.marks) :=
      h.heaped.imp_of_mem fun a ha b hb hab => hmarks ▸ hab.append (hold ha) (hold hb) _
    have hbehind (m : UInt64 × α) (hm : m ∈ t.shape.inorder) (hle : ¬ m.1 < output s.size) :
        Before s'.nodes.marks m (output s.size, k) :=
      hmarks ▸ before_concat (hold hm) hnew (UInt64.not_lt.1 hle)
    have hinsert := Treap.heaped_insert (r := Before s'.nodes.marks) (v := v) (fun _ _ _ => Heavier.trans)
      (fun _ hself => hself.asymm hself) (fun _ _ => Heavier.le) hheaped hget (fun _ _ => Or.inl) hbehind
    exact hinsert.1
  · rw [← hdrawn, hpriorities]

/-- One more entry. -/
theorem exists_set [TransCmp cmp] (h : Entered cmp output keys s t) (k : α) (v : β) :
    ∃ replaced s' t', s.set cmp k v = some (replaced, s') ∧ Entered cmp output (addKey cmp keys k) s' t' := by
  by_cases hk : ∃ key ∈ keys, cmp k key = .eq
  · obtain ⟨old, s', t', hset, -, -, h'⟩ := h.exists_overwrite hk v
    rw [addKey_of_exists hk]
    exact ⟨some old, s', t', hset, h'⟩
  · obtain ⟨s', t', hset, h'⟩ := h.exists_new hk v
    rw [addKey_of_not_exists hk]
    exact ⟨none, s', t', hset, h'⟩

/-- A whole history of entries. -/
theorem exists_setAll [TransCmp cmp] (h : Entered cmp output keys s t) (history : List (α × β)) :
    ∃ s' t', setAll cmp s history = some s' ∧
      Entered cmp output (history.foldl (fun keys e => addKey cmp keys e.1) keys) s' t' := by
  induction history generalizing keys s t with
  | nil => exact ⟨s, t, rfl, h⟩
  | cons e history ih =>
    obtain ⟨replaced, s₁, t₁, hset, h₁⟩ := h.exists_set e.1 e.2
    obtain ⟨s', t', hrest, h'⟩ := ih h₁
    refine ⟨s', t', ?_, h'⟩
    rw [setAll, List.foldlM_cons, hset]
    exact hrest

open Classical in
/-- The tree of positions is the search tree in heap order. -/
theorem exists_isTreap [TransCmp cmp] (h : Entered cmp output keys s t) :
    ∃ T, s.Spans T ∧ IsTreap cmp s.nodes.marks T ∧ s.height = some T.height ∧
      T.map (s.nodes.marks[·]?) = t.shape.map some := by
  obtain ⟨T, hspans, hperm, hshape⟩ := h.holds.exists_spans
  have hlength : s.nodes.marks.length = s.size := TreapNodes.length_marks _
  refine ⟨T, hspans, ⟨hlength ▸ hperm, ?_, ?_⟩, ?_, hshape⟩
  · have hsorted : (t.shape.inorder.map some).Pairwise fun o o' =>
        ∃ a b, o = some a ∧ o' = some b ∧ cmp a.2 b.2 = .lt :=
      List.pairwise_map.2 ((Treap.ordered_iff.1 h.ordered).imp fun {a b} hlt => ⟨a, b, rfl, rfl, hlt⟩)
    rw [← BinaryTree.inorder_map, ← hshape, BinaryTree.inorder_map, List.pairwise_map] at hsorted
    exact hsorted
  · have hheaped : (t.shape.map some).Heaped fun o o' =>
        ∃ a b, o = some a ∧ o' = some b ∧ Before s.nodes.marks a b :=
      BinaryTree.heaped_map.2 (h.heaped.imp_of_mem fun a _ b _ hab => ⟨a, b, rfl, rfl, hab⟩)
    rw [← hshape, BinaryTree.heaped_map] at hheaped
    refine hheaped.imp_of_mem fun i _ j _ => ?_
    rintro ⟨a, b, ha, hb, hab⟩
    refine ⟨a, b, ha, hb, ?_⟩
    obtain ⟨hi, rfl⟩ := List.getElem?_eq_some_iff.1 ha
    obtain ⟨hj, rfl⟩ := List.getElem?_eq_some_iff.1 hb
    rwa [Before, h.nodup.idxOf_getElem, h.nodup.idxOf_getElem] at hab
  · rw [h.holds.height_eq, ← t.height_shape, ← BinaryTree.height_map some t.shape, ← hshape, BinaryTree.height_map]

end Entered

/-- From left to right, the priorities at the positions are those in the stored tree. -/
theorem map_priority?_inorder {T : BinaryTree Nat} {u : BinaryTree (UInt64 × α)}
    (h : T.map (marks[·]?) = u.map some) :
    T.inorder.map (priority? marks) = (u.inorder.map Prod.fst).map some := by
  have hinorder : T.inorder.map (marks[·]?) = u.inorder.map some := by
    rw [← BinaryTree.inorder_map, h, BinaryTree.inorder_map]
  have hmap := congrArg (List.map (Option.map Prod.fst)) hinorder
  rw [List.map_map, List.map_map] at hmap
  rw [List.map_map]
  exact hmap

/-- Where the same keys have the same priorities, and no two of these are equal, the priorities are in trees of the same
shape. -/
theorem Entered.map_priority_eq [TransCmp cmp] {output' : Nat → UInt64} {keys' : List α} {T T' : BinaryTree Nat}
    (h : Entered cmp output keys s t) (h' : Entered cmp output' keys' s' t')
    (hT : IsTreap cmp s.nodes.marks T) (hT' : IsTreap cmp s'.nodes.marks T')
    (hshape : T.map (s.nodes.marks[·]?) = t.shape.map some) (hshape' : T'.map (s'.nodes.marks[·]?) = t'.shape.map some)
    (hnodup : (s.nodes.marks.map Prod.fst).Nodup) (hsame : SameMarks cmp s.nodes.marks s'.nodes.marks) :
    T.map (priority? s.nodes.marks) = T'.map (priority? s'.nodes.marks) := by
  have hsame : SameMarks cmp t.shape.inorder t'.shape.inorder := by
    simpa only [SameMarks, h.holds.perm_marks.mem_iff, h'.holds.perm_marks.mem_iff] using hsame
  have horder := hsame.map_fst_eq (Treap.ordered_iff.1 h.ordered) (Treap.ordered_iff.1 h'.ordered)
  refine hT.map_priority_eq hT' hnodup ?_
  rw [map_priority?_inorder hshape, map_priority?_inorder hshape', horder]

/-! ### The shape after a history -/

theorem exists_entered (cmp : α → α → Ordering) [TransCmp cmp] (output : Nat → UInt64) (history : List (α × β)) :
    ∃ s t, setAll cmp { priorities := { output } } history = some s ∧
      Entered cmp output (firstKeys cmp history) s t :=
  (entered_empty cmp output).exists_setAll history

/-- After any history, the keys are at positions in the order in which they were new, the `k`-th one with the `k`-th
output of the stream of priorities, of which as many were drawn as there are nodes. A further value for a known key
draws nothing, and changes neither marks nor tree. The tree of positions is the only search tree in heap order for the
marks, which is the Cartesian tree of the priorities in the order of the keys. Another history that gives the same keys
the same priorities, no two of which are equal, in whatever order they are drawn, leads to a tree of the same shape. -/
theorem setAll_isTreap [TransCmp cmp] (output : Nat → UInt64) (history : List (α × β)) :
    let marks := assigned cmp output history
    let tree := BinaryTree.cartesian Heavier (keySorted cmp marks)
    ∃ s T, setAll cmp { priorities := { output } } history = some s ∧ s.Spans T ∧ s.nodes.marks = marks ∧
      s.priorities = { output, drawn := s.size } ∧
      (∀ k v, (∃ e ∈ history, cmp k e.1 = .eq) →
        ∃ old s', s.set cmp k v = some (some old, s') ∧ s'.Spans T ∧ s'.nodes.marks = marks ∧
          s'.priorities = s.priorities) ∧
      (∀ T', IsTreap cmp marks T' ↔ T' = T) ∧ T = tree.map Prod.snd ∧ s.height = some tree.height ∧
      ∀ output' (history' : List (α × β)), (marks.map Prod.fst).Nodup →
        SameMarks cmp marks (assigned cmp output' history') →
        ∃ s' T', setAll cmp { priorities := { output := output' } } history' = some s' ∧ s'.Spans T' ∧
          s'.nodes.marks = assigned cmp output' history' ∧
          T'.map (priority? s'.nodes.marks) = T.map (priority? marks) := by
  intro marks tree
  obtain ⟨s, t, hset, h⟩ := exists_entered cmp output history
  obtain ⟨T, hspans, hT, hheight, hshape⟩ := h.exists_isTreap
  have hmarks : s.nodes.marks = marks := h.marks_eq
  have hcartesian : T = tree.map Prod.snd := hT.unique (hmarks ▸ isTreap_cartesian (hmarks ▸ h.distinct))
  refine ⟨s, T, hset, hspans, hmarks, h.priorities_eq, fun k v hk => ?_, fun T' => ⟨fun hT' => ?_, ?_⟩, hcartesian, ?_,
    fun output' history' hnodup hsame => ?_⟩
  · obtain ⟨old, s', t', hset', hmarks', hpriorities, h'⟩ := h.exists_overwrite (exists_mem_firstKeys hk) v
    obtain ⟨T', hspans', hT', -, -⟩ := h'.exists_isTreap
    rw [hmarks'] at hT'
    exact ⟨old, s', hset', hT'.unique hT ▸ hspans', hmarks'.trans hmarks, hpriorities⟩
  · exact hT'.unique (hmarks ▸ hT)
  · rintro rfl
    exact hmarks ▸ hT
  · rw [hheight, hcartesian, BinaryTree.height_map]
  · obtain ⟨s', t', hset', h'⟩ := exists_entered cmp output' history'
    obtain ⟨T', hspans', hT', -, hshape'⟩ := h'.exists_isTreap
    rw [← hmarks] at hnodup hsame
    have hmarks' : s'.nodes.marks = assigned cmp output' history' := h'.marks_eq
    rw [← hmarks'] at hsame
    refine ⟨s', T', hset', hspans', hmarks', ?_⟩
    rw [← hmarks]
    exact (h.map_priority_eq h' hT hT' hshape hshape' hnodup hsame).symm

/-- Integers by their absolute values, so that a number and its negative are equal keys. -/
private def byAbs : Int → Int → Ordering :=
  compareOn Int.natAbs

private instance : TransCmp byAbs :=
  inferInstanceAs (TransCmp (compareOn Int.natAbs))

private def overwriting : List (Int × Char) :=
  [(3, 'a'), (-1, 'b'), (2, 'c'), (1, 'd')]

private def reordered : List (Int × Char) :=
  [(2, 'c'), (-3, 'a'), (1, 'b')]

/-- The priorities of `overwriting`, in the order of the keys of `reordered`. -/
private def reorderedOutput (i : Nat) : UInt64 :=
  ChaCha.draw 7 ([2, 0, 1].getD i i)

/-- The last new key has the highest priority, so it is on top. Three priorities were drawn for four entries. -/
theorem setAll_isTreap_byAbs :
    ∃ s T, setAll byAbs { priorities := .ofSeed 7 } overwriting = some s ∧ s.Spans T ∧
      T = .node 2 (.node 1 .nil .nil) (.node 0 .nil .nil) ∧ s.height = some 2 ∧ s.priorities.drawn = 3 ∧
      (∃ old s', s.set byAbs (-3) 'e' = some (some old, s') ∧ s'.Spans T ∧ s'.priorities.drawn = 3) ∧
      ∃ s' T', setAll byAbs { priorities := { output := reorderedOutput } } reordered = some s' ∧ s'.Spans T' ∧
        T'.map (priority? s'.nodes.marks) = T.map (priority? s.nodes.marks) := by
  have hassigned : assigned byAbs (ChaCha.draw 7) overwriting =
      [(ChaCha.draw 7 0, 3), (ChaCha.draw 7 1, -1), (ChaCha.draw 7 2, 2)] := rfl
  have hsorted : keySorted byAbs (assigned byAbs (ChaCha.draw 7) overwriting) =
      [(ChaCha.draw 7 1, 1), (ChaCha.draw 7 2, 2), (ChaCha.draw 7 0, 0)] := by
    rw [hassigned]
    generalize ChaCha.draw 7 = output
    simp +decide [keySorted, List.mergeSort]
  obtain ⟨s, T, hset, hspans, hmarks, hpriorities, hover, -, htree, hheight, hsame⟩ :=
    @setAll_isTreap Int Char byAbs _ (ChaCha.draw 7) overwriting
  rw [hsorted] at htree hheight
  have hdrawn : s.priorities.drawn = 3 := by
    rw [hpriorities]
    show s.size = 3
    rw [size, ← TreapNodes.length_marks, hmarks, hassigned]
    rfl
  obtain ⟨old, s₁, hset₁, hspans₁, -, hpriorities₁⟩ := hover (-3) 'e' ⟨(3, 'a'), by decide, by decide⟩
  obtain ⟨s₂, T₂, hset₂, hspans₂, -, hshape⟩ := hsame reorderedOutput reordered (by decide +kernel)
    ⟨by decide +kernel, by decide +kernel⟩
  rw [← hmarks] at hshape
  exact ⟨s, T, hset, hspans, htree.trans (by decide +kernel), hheight.trans (by decide +kernel), hdrawn,
    ⟨old, s₁, hset₁, hspans₁, hpriorities₁ ▸ hdrawn⟩, s₂, T₂, hset₂, hspans₂, hshape⟩

end TreapStore

end ProcessCalculus
