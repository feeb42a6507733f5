import ProcessCalculus.Treap.Basic
import ProcessCalculus.Treap.Store

/-!
# The trees that are stored

A storage represents the tree that one reads by following its links. Operations on the storage do to the represented
tree what the operations on trees do, and follow no link that leads out of the storage.

* `TreapNodes.Represents`: the tree below a link, and the positions of its nodes from left to right.
* `TreapNodes.exists_insertAt`: insertion into a storage is insertion into the tree. No position gets lost.
* `TreapNodes.exists_find`: looking up a key in a storage is looking it up in the tree.
* `TreapNodes.exists_pushLeftSpine`, `TreapNodes.deepest_eq`: what the two walks through a storage go through.
* `TreapStore.Holds`: the storage is one tree. Every operation keeps it so, and answers for the tree.
-/

namespace ProcessCalculus

variable {α β : Type}

namespace Treap

/-- The node with the first tree on the given side and the second one on the other side. -/
def joined (side : Side) (t : Treap α β) (p : UInt64) (k : α) (v : β) (u : Treap α β) : Treap α β :=
  match side with
  | .left => node t p k v u
  | .right => node u p k v t

/-- The node with a new subtree on the given side, which is rotated to the top if its priority is higher. -/
def lifted (side : Side) (t : Treap α β) (p : UInt64) (k : α) (v : β) (u : Treap α β) : Treap α β :=
  match side with
  | .left => nodeLeft t p k v u
  | .right => nodeRight u p k v t

variable {cmp : α → α → Ordering} {side : Side} {t u a b : Treap α β} {p q : UInt64} {k k' : α} {v v' : β}

theorem lifted_of_gt (h : q > p) :
    lifted side (joined side a q k' v' b) p k v u = joined side a q k' v' (joined side b p k v u) := by
  cases side <;> simp [lifted, joined, nodeLeft, nodeRight, h]

theorem lifted_of_not_gt (h : ¬ q > p) :
    lifted side (joined side a q k' v' b) p k v u = joined side (joined side a q k' v' b) p k v u := by
  cases side <;> simp [lifted, joined, nodeLeft, nodeRight, h]

theorem height_joined : (joined side t p k v u).height = max t.height u.height + 1 := by
  cases side
  · rfl
  · simp [joined, height, Nat.max_comm]

theorem insert_joined (h : Side.toward (cmp k k') = some side) :
    (joined side t p k' v' u).insert cmp q k v = lifted side (t.insert cmp q k v) p k' v' u := by
  cases hk : cmp k k' <;> rw [hk] at h <;> cases h <;> simp [joined, lifted, insert, hk]

theorem get?_joined (h : Side.toward (cmp k k') = some side) :
    (joined side t p k' v u).get? cmp k = t.get? cmp k := by
  cases hk : cmp k k' <;> rw [hk] at h <;> cases h <;> simp [joined, get?, hk]

theorem modify_joined (h : Side.toward (cmp k k') = some side) (f : β → β) :
    (joined side t p k' v u).modify cmp k f = joined side (t.modify cmp k f) p k' v u := by
  cases hk : cmp k k' <;> rw [hk] at h <;> cases h <;> simp [joined, modify, hk]

end Treap

/-- A position between those of the subtree on the given side and those on the other side. -/
def Side.between (side : Side) (xs : List Nat) (id : Nat) (ys : List Nat) : List Nat :=
  match side with
  | left => xs ++ id :: ys
  | right => ys ++ id :: xs

namespace Side

variable {side : Side} {id id' i : Nat} {xs ys zs : List Nat}

theorem between_perm (side : Side) (xs : List Nat) (id : Nat) (ys : List Nat) :
    (side.between xs id ys).Perm (id :: (xs ++ ys)) := by
  cases side with
  | left => exact List.perm_middle
  | right => exact List.perm_middle.trans (List.perm_append_comm.cons id)

/-- What comes before a subtree comes before the node as well. -/
theorem between_perm_append (h : xs.Perm (zs ++ ys)) (id : Nat) (us : List Nat) :
    (side.between xs id us).Perm (zs ++ side.between ys id us) := by
  have hxs := (between_perm side xs id us).trans ((h.append_right us).cons id)
  have hys := (between_perm side ys id us).append_left zs
  refine hxs.trans (List.Perm.trans ?_ hys.symm)
  rw [List.append_assoc]
  exact List.perm_middle.symm

theorem mem_between : i ∈ side.between xs id ys ↔ i = id ∨ i ∈ xs ∨ i ∈ ys := by
  rw [(between_perm side xs id ys).mem_iff, List.mem_cons, List.mem_append]

theorem nodup_between :
    (side.between xs id ys).Nodup ↔ (id ∉ xs ∧ id ∉ ys) ∧ xs.Nodup ∧ ys.Nodup ∧ ∀ i ∈ xs, i ∉ ys := by
  rw [(between_perm side xs id ys).nodup_iff, List.nodup_cons, List.mem_append, not_or, List.nodup_append]
  constructor
  · rintro ⟨hid, hxs, hys, hne⟩
    exact ⟨hid, hxs, hys, fun i hi hi' => hne i hi i hi' rfl⟩
  · rintro ⟨hid, hxs, hys, hdisjoint⟩
    refine ⟨hid, hxs, hys, fun i hi j hj hij => hdisjoint i hi ?_⟩
    rwa [hij]

/-- A rotation leaves the positions in their order. -/
theorem between_between :
    side.between (side.between xs id' ys) id zs = side.between xs id' (side.between ys id zs) := by
  cases side <;> simp [between]

end Side

namespace TreapNodes

/-- The nodes below a link form the tree, and from left to right they are at the listed positions. -/
inductive Represents (nodes : TreapNodes α β) : Option Nat → Treap α β → List Nat → Prop
  | leaf : Represents nodes none .leaf []
  | node {id : Nat} {node : TreapNode α β} {l r : Treap α β} {xs ys : List Nat} (hnode : nodes[id]? = some node)
      (hleft : Represents nodes node.left l xs) (hright : Represents nodes node.right r ys) :
      Represents nodes (some id) (.node l node.priority node.key node.value r) (xs ++ id :: ys)

variable {nodes nodes' : TreapNodes α β} {link : Option Nat} {id child i : Nat} {node : TreapNode α β}
  {t u : Treap α β} {ids xs ys : List Nat} {side : Side}

namespace Represents

theorem joined (hnode : nodes[id]? = some node) (ht : Represents nodes (node.child side) t xs)
    (hu : Represents nodes (node.child side.other) u ys) :
    Represents nodes (some id) (.joined side t node.priority node.key node.value u) (side.between xs id ys) := by
  cases side with
  | left => exact .node hnode ht hu
  | right => exact .node hnode hu ht

theorem exists_node (h : Represents nodes (some id) t ids) : ∃ node, nodes[id]? = some node := by
  cases h with
  | node hnode => exact ⟨_, hnode⟩

theorem exists_parts (h : Represents nodes (some id) t ids) (hnode : nodes[id]? = some node) :
    ∃ l r xs ys, Represents nodes node.left l xs ∧ Represents nodes node.right r ys ∧
      t = .node l node.priority node.key node.value r ∧ ids = xs ++ id :: ys := by
  cases h with
  | node hnode' hleft hright =>
    obtain rfl := Option.some.inj (hnode.symm.trans hnode')
    exact ⟨_, _, _, _, hleft, hright, rfl, rfl⟩

/-- The parts of a tree, seen from one of the sides. -/
theorem exists_joined (h : Represents nodes (some id) t ids) (hnode : nodes[id]? = some node) (side : Side) :
    ∃ a b xs ys, Represents nodes (node.child side) a xs ∧ Represents nodes (node.child side.other) b ys ∧
      t = .joined side a node.priority node.key node.value b ∧ ids = side.between xs id ys := by
  obtain ⟨l, r, xs, ys, hleft, hright, rfl, rfl⟩ := h.exists_parts hnode
  cases side with
  | left => exact ⟨l, r, xs, ys, hleft, hright, rfl, rfl⟩
  | right => exact ⟨r, l, ys, xs, hright, hleft, rfl, rfl⟩

theorem lt_size (h : Represents nodes link t ids) : ∀ i ∈ ids, i < nodes.size := by
  induction h with
  | leaf => nofun
  | node hnode _ _ ihl ihr =>
    intro i hi
    rw [List.mem_append, List.mem_cons] at hi
    rcases hi with hi | rfl | hi
    · exact ihl i hi
    · exact (Array.getElem?_eq_some_iff.1 hnode).1
    · exact ihr i hi

/-- What happens elsewhere does not matter. -/
theorem frame (h : Represents nodes link t ids) (heq : ∀ i ∈ ids, nodes'[i]? = nodes[i]?) :
    Represents nodes' link t ids := by
  induction h with
  | leaf => exact .leaf
  | node hnode _ _ ihl ihr =>
    refine .node ((heq _ (by simp)).trans hnode) (ihl fun i hi => heq i ?_) (ihr fun i hi => heq i ?_)
    · exact List.mem_append_left _ hi
    · exact List.mem_append_right _ (List.mem_cons_of_mem _ hi)

theorem length_eq (h : Represents nodes link t ids) : ids.length = t.toList.length := by
  induction h with
  | leaf => rfl
  | node _ _ _ ihl ihr => simp [Treap.toList, ihl, ihr]

theorem height_le (h : Represents nodes link t ids) : t.height ≤ ids.length := by
  induction h with
  | leaf => exact Nat.le_refl 0
  | node _ _ _ ihl ihr =>
    rw [Treap.height, List.length_append, List.length_cons]
    omega

end Represents

theorem change_eq (hnode : nodes[id]? = some node) (f : TreapNode α β → TreapNode α β) :
    nodes.change id f = some (nodes.modify id f) :=
  if_pos (Array.getElem?_eq_some_iff.1 hnode).1

theorem getElem?_modify_self (hnode : nodes[id]? = some node) (f : TreapNode α β → TreapNode α β) :
    (nodes.modify id f)[id]? = some (f node) := by
  rw [Array.getElem?_modify, if_pos rfl, hnode]
  rfl

theorem getElem?_modify_of_ne (h : i ≠ id) (f : TreapNode α β → TreapNode α β) :
    (nodes.modify id f)[i]? = nodes[i]? := by
  rw [Array.getElem?_modify, if_neg (Ne.symm h)]

/-- A changed node leaves a tree as it is if it does not stand in it. -/
theorem Represents.modify (h : Represents nodes link t ids) (hid : id ∉ ids) (f : TreapNode α β → TreapNode α β) :
    Represents (nodes.modify id f) link t ids := by
  apply h.frame
  intro i hi
  apply getElem?_modify_of_ne
  rintro rfl
  exact hid hi

/-- The value at the root is changed. -/
theorem Represents.mapValue {l r : Treap α β} (hnode : nodes[id]? = some node) (hl : Represents nodes node.left l xs)
    (hr : Represents nodes node.right r ys) (hnodup : (xs ++ id :: ys).Nodup) (f : β → β) :
    Represents (nodes.modify id (·.mapValue f)) (some id) (.node l node.priority node.key (f node.value) r)
      (xs ++ id :: ys) := by
  have hbetween : (Side.left.between xs id ys).Nodup := hnodup
  obtain ⟨⟨hidx, hidy⟩, -⟩ := Side.nodup_between.1 hbetween
  exact .node (getElem?_modify_self hnode _) (hl.modify hidx _) (hr.modify hidy _)

/-- A rotation of the storage is one of the tree. -/
theorem exists_rotate {c : TreapNode α β} {a b : Treap α β} {zs : List Nat} (hnode : nodes[id]? = some node)
    (hlink : node.child side = some child) (hc : nodes[child]? = some c) (ha : Represents nodes (c.child side) a xs)
    (hb : Represents nodes (c.child side.other) b ys) (hu : Represents nodes (node.child side.other) u zs)
    (hnodup : (side.between (side.between xs child ys) id zs).Nodup) :
    ∃ nodes', nodes.rotate side id = some (nodes', child) ∧ nodes'.size = nodes.size ∧
      Represents nodes' (some child)
        (.joined side a c.priority c.key c.value (.joined side b node.priority node.key node.value u))
        (side.between xs child (side.between ys id zs)) ∧
      ∀ i, i ≠ child → i ≠ id → nodes'[i]? = nodes[i]? := by
  obtain ⟨⟨hid, hidz⟩, hinner, -, hz⟩ := Side.nodup_between.1 hnodup
  obtain ⟨⟨hchildx, hchildy⟩, -⟩ := Side.nodup_between.1 hinner
  rw [Side.mem_between, not_or, not_or] at hid
  obtain ⟨hne, hidx, hidy⟩ := hid
  have hchildz := hz child (Side.mem_between.2 (.inl rfl))
  -- the parent gets the inner subtree, and the child gets the parent
  let nodes₁ := nodes.modify id (·.setChild side (c.child side.other))
  let nodes₂ := nodes₁.modify child (·.setChild side.other (some id))
  have hc₁ : nodes₁[child]? = some c := (getElem?_modify_of_ne (Ne.symm hne) _).trans hc
  have hnode₂ : nodes₂[id]? = some (node.setChild side (c.child side.other)) :=
    (getElem?_modify_of_ne hne _).trans (getElem?_modify_self hnode _)
  have hc₂ : nodes₂[child]? = some (c.setChild side.other (some id)) := getElem?_modify_self hc₁ _
  have ha₂ : Represents nodes₂ (c.child side) a xs := (ha.modify hidx _).modify hchildx _
  have hb₂ : Represents nodes₂ (c.child side.other) b ys := (hb.modify hidy _).modify hchildy _
  have hu₂ : Represents nodes₂ (node.child side.other) u zs := (hu.modify hidz _).modify hchildz _
  have hlower : Represents nodes₂ (some id) _ (side.between ys id zs) :=
    .joined hnode₂ (by simpa using hb₂) (by simpa using hu₂)
  have hupper : Represents nodes₂ (some child) _ (side.between xs child (side.between ys id zs)) :=
    .joined hc₂ (by simpa using ha₂) (by simpa using hlower)
  refine ⟨nodes₂, ?_, ?_, by simpa using hupper, fun i hi hi' => ?_⟩
  · simp [rotate, hnode, hlink, hc, change_eq hnode, change_eq hc₁, nodes₁, nodes₂]
  · rw [Array.size_modify, Array.size_modify]
  · exact (getElem?_modify_of_ne hi _).trans (getElem?_modify_of_ne hi' _)

/-- Where a tree was put below a link of a node, the node is on top of the lifted tree. -/
theorem exists_attach (hnode : nodes[id]? = some node) (ht : Represents nodes (some child) t xs)
    (hu : Represents nodes (node.child side.other) u ys) (hnodup : (side.between xs id ys).Nodup) :
    ∃ nodes' top, nodes.attach side id child = some (nodes', top) ∧ nodes'.size = nodes.size ∧
      Represents nodes' (some top) (.lifted side t node.priority node.key node.value u) (side.between xs id ys) ∧
      ∀ i, i ∉ xs → i ≠ id → nodes'[i]? = nodes[i]? := by
  obtain ⟨c, hc⟩ := ht.exists_node
  obtain ⟨a, b, as, bs, ha, hb, rfl, rfl⟩ := ht.exists_joined hc side
  obtain ⟨⟨hid, hidu⟩, -⟩ := Side.nodup_between.1 hnodup
  rw [Side.mem_between, not_or, not_or] at hid
  obtain ⟨hne, hida, hidb⟩ := hid
  let nodes₁ := nodes.modify id (·.setChild side (some child))
  have hc₁ : nodes₁[child]? = some c := (getElem?_modify_of_ne (Ne.symm hne) _).trans hc
  have hnode₁ : nodes₁[id]? = some (node.setChild side (some child)) := getElem?_modify_self hnode _
  have ha₁ : Represents nodes₁ (c.child side) a as := ha.modify hida _
  have hb₁ : Represents nodes₁ (c.child side.other) b bs := hb.modify hidb _
  have hu₁ : Represents nodes₁ ((node.setChild side (some child)).child side.other) u ys := by
    rw [TreapNode.child_other_setChild]
    exact hu.modify hidu _
  have hsize : nodes₁.size = nodes.size := Array.size_modify
  by_cases hgt : c.priority > node.priority
  · obtain ⟨nodes', hrotate, hsize', hrep, hframe⟩ := exists_rotate hnode₁ (by simp) hc₁ ha₁ hb₁ hu₁ hnodup
    refine ⟨nodes', child, ?_, hsize'.trans hsize, ?_, fun i hi hi' => ?_⟩
    · simp [attach, change_eq hnode, hc₁, hnode₁, hgt, hrotate, nodes₁]
    · rw [Treap.lifted_of_gt hgt, Side.between_between]
      simpa using hrep
    · rw [Side.mem_between, not_or] at hi
      exact (hframe i hi.1 hi').trans (getElem?_modify_of_ne hi' _)
  · refine ⟨nodes₁, id, ?_, hsize, ?_, fun i _ hi' => getElem?_modify_of_ne hi' _⟩
    · simp [attach, change_eq hnode, hc₁, hnode₁, hgt, nodes₁]
    · rw [Treap.lifted_of_not_gt hgt]
      have hchild := Represents.joined hc₁ ha₁ hb₁
      simpa using Represents.joined hnode₁ (by simpa using hchild) hu₁

variable {cmp : α → α → Ordering} {k : α}

/-- The positions that are entered for a key, given the value that is there: the next one, if there is none. -/
def entered (found : Option β) (next : Nat) : List Nat :=
  match found with
  | some _ => []
  | none => [next]

theorem mem_entered {found : Option β} {next : Nat} (h : i ∈ entered found next) : i = next := by
  cases found with
  | some _ => cases h
  | none => exact List.mem_singleton.1 h

theorem nodup_entered {found : Option β} {next : Nat} (hnodup : ids.Nodup) (hlt : ∀ i ∈ ids, i < next) :
    (entered found next ++ ids).Nodup := by
  cases found with
  | some _ => exact hnodup
  | none => exact List.nodup_cons.2 ⟨fun h => Nat.lt_irrefl _ (hlt _ h), hnodup⟩

/-- An insertion into a tree with other nodes around it. By induction on the depth: below the node the positions of its
other subtree are elsewhere, so they are as before when the new child is attached. -/
theorem exists_insertAt (cmp : α → α → Ordering) (k : α) (v : β) {depth : Nat} (h : Represents nodes link t ids)
    (hnodup : ids.Nodup) (hdepth : t.height < depth) (stream : PriorityStream) :
    ∃ nodes' stream' top ids',
      insertAt cmp k v depth link nodes stream = some (nodes', stream', top, t.get? cmp k) ∧
      nodes'.size = nodes.size + (entered (t.get? cmp k) nodes.size).length ∧
      Represents nodes' (some top) (t.insert cmp stream.next.1 k v) ids' ∧
      ids'.Perm (entered (t.get? cmp k) nodes.size ++ ids) ∧
      ∀ i, i < nodes.size → i ∉ ids → nodes'[i]? = nodes[i]? := by
  induction depth generalizing link t ids with
  | zero => exact absurd hdepth (Nat.not_lt_zero _)
  | succ depth ih =>
    cases link with
    | none =>
      cases h
      have hnew : (nodes.push ⟨k, v, stream.next.1, none, none⟩)[nodes.size]? = some _ := Array.getElem?_push_size
      refine ⟨_, _, nodes.size, [nodes.size], rfl, Array.size_push _, .node hnew .leaf .leaf, .refl _,
        fun i hi _ => ?_⟩
      rw [Array.getElem?_push, if_neg (Nat.ne_of_lt hi)]
    | some id =>
      obtain ⟨node, hnode⟩ := h.exists_node
      cases hside : Side.toward (cmp k node.key) with
      | none =>
        obtain ⟨l, r, xs, ys, hl, hr, rfl, rfl⟩ := h.exists_parts hnode
        have hk : cmp k node.key = .eq := Side.toward_eq_none_iff.1 hside
        have hget : (Treap.node l node.priority node.key node.value r).get? cmp k = some node.value := by
          simp [Treap.get?, hk]
        have hrep := Represents.mapValue hnode hl hr hnodup fun _ => v
        rw [hget, Treap.insert, hk]
        refine ⟨_, stream, id, _, ?_, Array.size_modify, hrep, .refl _, fun i _ hi => getElem?_modify_of_ne ?_ _⟩
        · simp [insertAt, hnode, hside, change_eq hnode]
        · rintro rfl
          exact hi (by simp)
      | some side =>
        obtain ⟨a, b, xs, ys, ha, hb, rfl, rfl⟩ := h.exists_joined hnode side
        obtain ⟨⟨hidx, hidy⟩, hxs, hys, hxy⟩ := Side.nodup_between.1 hnodup
        have hid : id < nodes.size := (Array.getElem?_eq_some_iff.1 hnode).1
        rw [Treap.height_joined] at hdepth
        rw [Treap.get?_joined hside, Treap.insert_joined hside]
        obtain ⟨nodes₁, stream₁, child, xs₁, hinsert, hsize₁, hrep₁, hperm₁, hframe₁⟩ := ih ha hxs (by omega)
        have hnode₁ : nodes₁[id]? = some node := (hframe₁ id hid hidx).trans hnode
        have hb₁ : Represents nodes₁ (node.child side.other) b ys :=
          hb.frame fun i hi => hframe₁ i (hb.lt_size i hi) fun hx => hxy i hx hi
        have hperm : (side.between xs₁ id ys).Perm _ := Side.between_perm_append hperm₁ id ys
        have hnodup₁ : (side.between xs₁ id ys).Nodup := hperm.nodup_iff.2 (nodup_entered hnodup h.lt_size)
        obtain ⟨nodes₂, top, hattach, hsize₂, hrep₂, hframe₂⟩ := exists_attach hnode₁ hrep₁ hb₁ hnodup₁
        refine ⟨nodes₂, stream₁, top, _, ?_, hsize₂.trans hsize₁, hrep₂, hperm, fun i hi hids => ?_⟩
        · simp [insertAt, hnode, hside, hinsert, hattach]
        · rw [Side.mem_between, not_or, not_or] at hids
          refine (hframe₂ i (fun hx => ?_) hids.1).trans (hframe₁ i hi hids.2.1)
          rcases List.mem_append.1 (hperm₁.mem_iff.1 hx) with hx | hx
          · exact Nat.lt_irrefl _ (mem_entered hx ▸ hi)
          · exact hids.2.1 hx

/-- What is found under a key: its node, where a change of the value changes the tree at the key; or nothing, where the
tree does not have the key. -/
inductive Finds (nodes : TreapNodes α β) (link : Option Nat) (t : Treap α β) (ids : List Nat) (cmp : α → α → Ordering)
    (k : α) : Option Nat → Prop
  | missing (hget : t.get? cmp k = none) (hmodify : ∀ f, t.modify cmp k f = t) : Finds nodes link t ids cmp k none
  | found {id : Nat} {node : TreapNode α β} (hid : id ∈ ids) (hnode : nodes[id]? = some node)
      (hget : t.get? cmp k = some node.value)
      (hmodify : ∀ f, Represents (nodes.modify id (·.mapValue f)) link (t.modify cmp k f) ids) :
      Finds nodes link t ids cmp k (some id)

/-- The search along the links is the search in the tree. By induction on the depth. -/
theorem exists_find (cmp : α → α → Ordering) (k : α) {depth : Nat} (h : Represents nodes link t ids)
    (hnodup : ids.Nodup) (hdepth : t.height ≤ depth) :
    ∃ found, nodes.find cmp k depth link = some found ∧ Finds nodes link t ids cmp k found := by
  induction depth generalizing link t ids with
  | zero =>
    cases h with
    | leaf => exact ⟨none, rfl, .missing rfl fun _ => rfl⟩
    | node => exact absurd hdepth (Nat.not_succ_le_zero _)
  | succ depth ih =>
    cases link with
    | none =>
      cases h
      exact ⟨none, rfl, .missing rfl fun _ => rfl⟩
    | some id =>
      obtain ⟨node, hnode⟩ := h.exists_node
      cases hside : Side.toward (cmp k node.key) with
      | none =>
        refine ⟨some id, by simp [TreapNodes.find, hnode, hside], ?_⟩
        obtain ⟨l, r, xs, ys, hl, hr, rfl, rfl⟩ := h.exists_parts hnode
        have hk : cmp k node.key = .eq := Side.toward_eq_none_iff.1 hside
        refine .found (by simp) hnode (by simp [Treap.get?, hk]) fun f => ?_
        rw [Treap.modify, hk]
        exact .mapValue hnode hl hr hnodup f
      | some side =>
        obtain ⟨a, b, xs, ys, ha, hb, rfl, rfl⟩ := h.exists_joined hnode side
        obtain ⟨⟨hidx, -⟩, hxs, -, hxy⟩ := Side.nodup_between.1 hnodup
        rw [Treap.height_joined] at hdepth
        obtain ⟨found, hfind, hfinds⟩ := ih ha hxs (by omega)
        refine ⟨found, by simp [TreapNodes.find, hnode, hside, hfind], ?_⟩
        cases hfinds with
        | missing hget hmodify =>
          refine .missing ((Treap.get?_joined hside).trans hget) fun f => ?_
          rw [Treap.modify_joined hside, hmodify f]
        | @found at' node' hid hnode' hget hmodify =>
          refine .found (Side.mem_between.2 (.inr (.inl hid))) hnode' ((Treap.get?_joined hside).trans hget) fun f => ?_
          rw [Treap.modify_joined hside]
          have hne : id ≠ at' := by
            rintro rfl
            exact hidx hid
          exact .joined ((getElem?_modify_of_ne hne _).trans hnode) (hmodify f) (hb.modify (hxy at' hid) _)

/-- The walk from a stack on which the left spine of a tree was put goes through the tree, and then on from the stack
as it was. -/
theorem exists_pushLeftSpine (h : Represents nodes link t ids) (hsize : ids.length ≤ nodes.size) {depth : Nat}
    (hdepth : t.height ≤ depth) (stack : List Nat) :
    ∃ stack', nodes.pushLeftSpine depth link stack = some stack' ∧
      ∀ steps, nodes.walk (ids.length + steps) stack' = (nodes.walk steps stack).map (t.toList ++ ·) := by
  induction h generalizing depth stack with
  | leaf =>
    refine ⟨stack, ?_, fun steps => ?_⟩
    · cases depth <;> rfl
    · simp [Treap.toList]
  | @node id node l r xs ys hnode hl hr ihl ihr =>
    rw [List.length_append, List.length_cons] at hsize
    rw [Treap.height] at hdepth
    obtain ⟨depth, rfl⟩ : ∃ d, depth = d + 1 := ⟨depth - 1, by omega⟩
    have hheight := hr.height_le
    have hdepthl : l.height ≤ depth := by omega
    have hdepthr : r.height ≤ nodes.size := by omega
    obtain ⟨stack₁, hpush₁, hwalk₁⟩ := ihl (by omega) hdepthl (id :: stack)
    obtain ⟨stack₂, hpush₂, hwalk₂⟩ := ihr (by omega) hdepthr stack
    refine ⟨stack₁, by simp [pushLeftSpine, hnode, hpush₁], fun steps => ?_⟩
    have hnext : nodes.next? (id :: stack) = some (some ((node.key, node.value), stack₂)) := by
      simp [next?, hnode, hpush₂]
    have hsteps : (xs ++ id :: ys).length + steps = xs.length + ((ys.length + steps) + 1) := by
      rw [List.length_append, List.length_cons]
      omega
    rw [hsteps, hwalk₁, walk, hnext]
    cases hrest : nodes.walk steps stack <;> simp [hwalk₂, hrest, Treap.toList]

/-- A stack with a tree on top is gone through from the tree on. -/
theorem deepest_eq (h : Represents nodes link t ids) {best depth : Nat} (hbest : depth ≤ best) (steps : Nat)
    (stack : List (Nat × Nat)) :
    nodes.deepest (ids.length + steps) best (link.toList.map (·, depth + 1) ++ stack) =
      nodes.deepest steps (max best (depth + t.height)) stack := by
  induction h generalizing best depth steps stack with
  | leaf => simp [Treap.height, Nat.max_eq_left hbest]
  | @node id node l r xs ys hnode hl hr ihl ihr =>
    have hsteps : (xs ++ id :: ys).length + steps = (ys.length + (xs.length + steps)) + 1 := by
      rw [List.length_append, List.length_cons]
      omega
    have hright : depth + 1 ≤ max best (depth + 1) := Nat.le_max_right _ _
    have hleft : depth + 1 ≤ max (max best (depth + 1)) (depth + 1 + r.height) := by omega
    rw [hsteps]
    show nodes.deepest _ best ((id, depth + 1) :: stack) = _
    simp only [deepest, hnode, Option.bind_eq_bind, Option.bind_some, List.map_append, List.append_assoc]
    rw [ihr hright, ihl hleft, Treap.height]
    congr 1
    omega

end TreapNodes

namespace TreapStore

open TreapNodes

/-- The storage is one tree: from the root one gets to every position once, and what one reads is the tree. -/
def Holds (s : TreapStore α β) (t : Treap α β) : Prop :=
  ∃ ids, s.nodes.Represents s.root t ids ∧ ids.Perm (List.range s.nodes.size)

variable {s : TreapStore α β} {t : Treap α β} {cmp : α → α → Ordering}

theorem holds_empty (priorities : PriorityStream) : ({ priorities } : TreapStore α β).Holds .leaf :=
  ⟨[], .leaf, .refl []⟩

namespace Holds

theorem size_eq (h : s.Holds t) : s.size = t.toList.length := by
  obtain ⟨ids, hrep, hperm⟩ := h
  rw [← hrep.length_eq, hperm.length_eq, List.length_range]
  rfl

theorem isEmpty_eq (h : s.Holds t) : s.isEmpty = t.toList.isEmpty := by
  have hsize : s.nodes.size = t.toList.length := h.size_eq
  rw [isEmpty, Bool.eq_iff_iff, Array.isEmpty_iff_size_eq_zero, hsize, List.length_eq_zero_iff, List.isEmpty_iff]

theorem height_le_size (h : s.Holds t) : t.height ≤ s.nodes.size := by
  obtain ⟨ids, hrep, hperm⟩ := id h
  have hheight := hrep.height_le
  rwa [hperm.length_eq, List.length_range] at hheight

/-- Insertion keeps one tree, and answers with what was there. -/
theorem exists_set (h : s.Holds t) (cmp : α → α → Ordering) (k : α) (v : β) :
    ∃ s', s.set cmp k v = some (t.get? cmp k, s') ∧ s'.Holds (t.insert cmp s.priorities.next.1 k v) := by
  have hdepth : t.height < s.nodes.size + 1 := Nat.lt_succ_of_le h.height_le_size
  obtain ⟨ids, hrep, hperm⟩ := h
  have hnodup : ids.Nodup := hperm.nodup_iff.2 List.nodup_range
  obtain ⟨nodes, priorities, top, ids', hinsert, hsize, hrep', hperm', -⟩ :=
    exists_insertAt cmp k v hrep hnodup hdepth s.priorities
  refine ⟨{ nodes, root := some top, priorities }, by simp [set, hinsert], ids', hrep', hperm'.trans ?_⟩
  show List.Perm _ (List.range nodes.size)
  rw [hsize]
  cases t.get? cmp k with
  | some _ => exact hperm
  | none =>
    show List.Perm (s.nodes.size :: ids) (List.range (s.nodes.size + 1))
    rw [List.range_succ]
    exact (hperm.cons _).trans (List.perm_append_singleton _ _).symm

theorem exists_find (h : s.Holds t) (cmp : α → α → Ordering) (k : α) :
    ∃ found, s.find cmp k = some found ∧
      ∃ ids, Finds s.nodes s.root t ids cmp k found ∧ ids.Perm (List.range s.nodes.size) := by
  have hdepth := h.height_le_size
  obtain ⟨ids, hrep, hperm⟩ := h
  obtain ⟨found, hfind, hfinds⟩ := TreapNodes.exists_find cmp k hrep (hperm.nodup_iff.2 List.nodup_range) hdepth
  exact ⟨found, hfind, ids, hfinds, hperm⟩

theorem get_eq (h : s.Holds t) (cmp : α → α → Ordering) (k : α) : s.get cmp k = some (t.get? cmp k) := by
  obtain ⟨found, hfind, ids, hfinds, -⟩ := h.exists_find cmp k
  cases hfinds with
  | missing hget => simp [get, hfind, hget]
  | found _ hnode hget => simp [get, hfind, hnode, hget]

theorem has_eq (h : s.Holds t) (cmp : α → α → Ordering) (k : α) : s.has cmp k = some (t.get? cmp k).isSome := by
  obtain ⟨found, hfind, ids, hfinds, -⟩ := h.exists_find cmp k
  cases hfinds with
  | missing hget => simp [has, hfind, hget]
  | found _ _ hget => simp [has, hfind, hget]

/-- A change of a value keeps one tree, and answers with the value that was there. -/
theorem exists_modify (h : s.Holds t) (cmp : α → α → Ordering) (k : α) (f : β → β) :
    ∃ s', s.modify cmp k f = some (t.get? cmp k, s') ∧ s'.Holds (t.modify cmp k f) := by
  obtain ⟨found, hfind, ids, hfinds, hperm⟩ := h.exists_find cmp k
  cases hfinds with
  | missing hget hmodify => exact ⟨s, by simp [modify, hfind, hget], (hmodify f).symm ▸ h⟩
  | @found id node hid hnode hget hmodify =>
    refine ⟨{ s with nodes := s.nodes.modify id (·.mapValue f) }, ?_, ids, hmodify f, ?_⟩
    · simp [modify, hfind, hnode, hget, change_eq hnode]
    · show ids.Perm (List.range (s.nodes.modify id _).size)
      rwa [Array.size_modify]

/-- The entries are those of the tree. -/
theorem entries_eq (h : s.Holds t) : s.entries = some t.toList := by
  have hdepth := h.height_le_size
  obtain ⟨ids, hrep, hperm⟩ := h
  have hlength : ids.length = s.nodes.size := by rw [hperm.length_eq, List.length_range]
  obtain ⟨stack, hpush, hwalk⟩ := exists_pushLeftSpine hrep (Nat.le_of_eq hlength) hdepth []
  have hnil : s.nodes.walk 1 [] = some [] := rfl
  have hall : s.nodes.walk (s.nodes.size + 1) stack = some t.toList := by
    rw [← hlength, hwalk 1, hnil]
    simp
  simp [entries, hpush, hall]

theorem keys_eq (h : s.Holds t) : s.keys = some (t.toList.map Prod.fst) := by
  rw [keys, h.entries_eq]
  rfl

theorem values_eq (h : s.Holds t) : s.values = some (t.toList.map Prod.snd) := by
  rw [values, h.entries_eq]
  rfl

theorem forEach_eq (h : s.Holds t) {σ : Type} (visit : σ → α → β → σ) (start : σ) :
    s.forEach visit start = some (t.toList.foldl (fun seen e => visit seen e.1 e.2) start) := by
  rw [forEach, h.entries_eq]
  rfl

theorem height_eq (h : s.Holds t) : s.height = some t.height := by
  obtain ⟨ids, hrep, hperm⟩ := h
  have hlength : ids.length = s.nodes.size := by rw [hperm.length_eq, List.length_range]
  have hdeepest := deepest_eq hrep (Nat.le_refl 0) 0 []
  rw [hlength, List.append_nil, Nat.zero_max, Nat.zero_add t.height] at hdeepest
  exact hdeepest

end Holds

end TreapStore

end ProcessCalculus
