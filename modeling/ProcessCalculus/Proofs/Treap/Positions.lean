import ProcessCalculus.Proofs.Treap.HeapOrder
import ProcessCalculus.Treap.Represents

/-!
# Positions in a stored treap

A node keeps its position, its key and its priority. An insertion of a new key adds a position at the end and draws one
priority, and the insertion of a known key adds no position and draws nothing.

* `TreapNodes.marks`: the priorities and keys, by position.
* `TreapNodes.Spans`: the tree of positions that one reads along the links.
* `TreapNodes.marks_insertAt`: what an insertion does to the marks and to the stream of priorities.
* `TreapStore.marks_set`, `TreapStore.drawn_eq_set`: the same for a storage, whose stream stands where there are as many
  priorities drawn as nodes.
* `TreapStore.Holds.exists_spans`: the tree of positions of a storage has the shape of the tree that is stored.
-/

namespace ProcessCalculus

variable {α β : Type}

namespace TreapNodes

/-- The priorities and the keys of the nodes, in the order in which they were entered. -/
def marks (nodes : TreapNodes α β) : List (UInt64 × α) :=
  nodes.toList.map fun node => (node.priority, node.key)

/-- The links below a link lead to the positions of the tree. -/
inductive Spans (nodes : TreapNodes α β) : Option Nat → BinaryTree Nat → Prop
  | nil : Spans nodes none .nil
  | node {id : Nat} {node : TreapNode α β} {left right : BinaryTree Nat} (hnode : nodes[id]? = some node)
      (hleft : Spans nodes node.left left) (hright : Spans nodes node.right right) :
      Spans nodes (some id) (.node id left right)

variable {nodes nodes' : TreapNodes α β} {link : Option Nat} {id child top i : Nat} {t : Treap α β} {ids : List Nat}
  {side : Side} {cmp : α → α → Ordering} {stream stream' : PriorityStream} {k : α} {v : β} {replaced : Option β}

theorem getElem?_marks (nodes : TreapNodes α β) (i : Nat) :
    nodes.marks[i]? = nodes[i]?.map fun node => (node.priority, node.key) := by
  rw [marks, List.getElem?_map, Array.getElem?_toList]

theorem length_marks (nodes : TreapNodes α β) : nodes.marks.length = nodes.size := by
  rw [marks, List.length_map, Array.length_toList]

/-! ### Marks of nodes that are changed -/

theorem marks_change {f : TreapNode α β → TreapNode α β}
    (hf : ∀ node, (f node).priority = node.priority ∧ (f node).key = node.key)
    (h : nodes.change id f = some nodes') : nodes'.marks = nodes.marks := by
  unfold change at h
  split at h
  · cases h
    apply List.ext_getElem?
    intro i
    rw [getElem?_marks, getElem?_marks, Array.getElem?_modify]
    split
    · cases nodes[i]? with
      | none => rfl
      | some node => simp [hf node]
    · rfl
  · cases h

private theorem marks_change_child {link : Option Nat} (h : nodes.change id (·.setChild side link) = some nodes') :
    nodes'.marks = nodes.marks :=
  marks_change (fun node => ⟨node.priority_setChild side link, node.key_setChild side link⟩) h

theorem marks_rotate (h : nodes.rotate side id = some (nodes', top)) : nodes'.marks = nodes.marks := by
  obtain ⟨node, -, h⟩ := Option.bind_eq_some_iff.1 h
  split at h
  · cases h
    rfl
  · obtain ⟨c, -, h⟩ := Option.bind_eq_some_iff.1 h
    obtain ⟨nodes₁, h₁, h⟩ := Option.bind_eq_some_iff.1 h
    obtain ⟨nodes₂, h₂, h⟩ := Option.bind_eq_some_iff.1 h
    cases h
    exact (marks_change_child h₂).trans (marks_change_child h₁)

theorem marks_attach (h : nodes.attach side id child = some (nodes', top)) : nodes'.marks = nodes.marks := by
  obtain ⟨nodes₁, h₁, h⟩ := Option.bind_eq_some_iff.1 h
  obtain ⟨c, -, h⟩ := Option.bind_eq_some_iff.1 h
  obtain ⟨node, -, h⟩ := Option.bind_eq_some_iff.1 h
  split at h
  · exact (marks_rotate h).trans (marks_change_child h₁)
  · cases h
    exact marks_change_child h₁

/-- An insertion draws a priority for a new key and adds its mark at the end. Otherwise it leaves all marks and the
stream as they are. By induction on the depth: nothing is changed before the place of the key is found. -/
theorem marks_insertAt {depth : Nat}
    (h : insertAt cmp k v depth link nodes stream = some (nodes', stream', top, replaced)) :
    (nodes'.marks = nodes.marks ++ if replaced.isSome then [] else [(stream.next.1, k)]) ∧
      stream' = if replaced.isSome then stream else stream.next.2 := by
  induction depth generalizing link nodes' stream' top replaced with
  | zero => cases h
  | succ depth ih =>
    cases link with
    | none =>
      cases h
      simp [marks, PriorityStream.next]
    | some id =>
      obtain ⟨node, -, h⟩ := Option.bind_eq_some_iff.1 h
      split at h
      · obtain ⟨nodes₁, h₁, h⟩ := Option.bind_eq_some_iff.1 h
        cases h
        have hsame := marks_change (f := (·.mapValue fun _ => v)) (fun _ => ⟨rfl, rfl⟩) h₁
        rw [hsame, Option.isSome_some, if_pos rfl, if_pos rfl, List.append_nil]
        exact ⟨rfl, rfl⟩
      · obtain ⟨⟨nodes₁, stream₁, child, replaced₁⟩, h₁, h⟩ := Option.bind_eq_some_iff.1 h
        obtain ⟨⟨nodes₂, top₂⟩, h₂, h⟩ := Option.bind_eq_some_iff.1 h
        cases h
        rw [marks_attach h₂]
        exact ih h₁

/-! ### Trees of positions -/

/-- A tree of positions goes with every tree that is represented. -/
theorem Represents.exists_spans (h : Represents nodes link t ids) :
    ∃ T, Spans nodes link T ∧ T.inorder = ids ∧ T.map (nodes.marks[·]?) = t.shape.map some := by
  induction h with
  | leaf => exact ⟨.nil, .nil, rfl, rfl⟩
  | @node id node l r xs ys hnode _ _ ihl ihr =>
    obtain ⟨left, hleft, rfl, hl⟩ := ihl
    obtain ⟨right, hright, rfl, hr⟩ := ihr
    have hmark : nodes.marks[id]? = some (node.priority, node.key) := by
      rw [getElem?_marks, hnode]
      rfl
    refine ⟨.node id left right, .node hnode hleft hright, rfl, ?_⟩
    simp only [BinaryTree.map, Treap.shape, hl, hr, hmark]

end TreapNodes

namespace TreapStore

/-- The links lead from the root to the positions of the tree. -/
def Spans (s : TreapStore α β) (T : BinaryTree Nat) : Prop :=
  s.nodes.Spans s.root T

variable {s s' : TreapStore α β} {t : Treap α β} {cmp : α → α → Ordering} {k : α} {v : β} {replaced : Option β}

theorem marks_set (h : s.set cmp k v = some (replaced, s')) :
    (s'.nodes.marks = s.nodes.marks ++ if replaced.isSome then [] else [(s.priorities.next.1, k)]) ∧
      s'.priorities = if replaced.isSome then s.priorities else s.priorities.next.2 := by
  obtain ⟨⟨nodes, priorities, root, replaced⟩, hinsert, h⟩ := Option.bind_eq_some_iff.1 h
  cases h
  exact TreapNodes.marks_insertAt hinsert

/-- As many priorities are drawn as there are nodes. -/
theorem drawn_eq_set (h : s.set cmp k v = some (replaced, s')) (hdrawn : s.priorities.drawn = s.size) :
    s'.priorities.drawn = s'.size := by
  obtain ⟨hmarks, hpriorities⟩ := marks_set h
  have hsize := congrArg List.length hmarks
  rw [List.length_append, TreapNodes.length_marks, TreapNodes.length_marks] at hsize
  change s'.size = s.size + _ at hsize
  rw [hpriorities, hsize, ← hdrawn]
  cases replaced <;> rfl

/-- The tree of positions has each position once, and the shape of the stored tree. -/
theorem Holds.exists_spans (h : s.Holds t) :
    ∃ T, s.Spans T ∧ T.inorder.Perm (List.range s.size) ∧ T.map (s.nodes.marks[·]?) = t.shape.map some := by
  obtain ⟨ids, hrep, hperm⟩ := h
  obtain ⟨T, hspans, rfl, hshape⟩ := hrep.exists_spans
  exact ⟨T, hspans, hperm, hshape⟩

end TreapStore

end ProcessCalculus
