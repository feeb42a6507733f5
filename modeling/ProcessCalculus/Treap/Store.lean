import ProcessCalculus.Bytes.ChaCha

/-!
# Stored treaps

The nodes of a treap in the order in which they were entered, where children are given by their positions. A node is
never removed. Rotations change links only, so all else of a node stays at its position.

An operation answers `none` if it follows a link that leads out of the storage, or if it goes deeper than there are
nodes. In a storage that holds a tree it does neither.

* `PriorityStream`: priorities that are drawn one after the other.
* `TreapNodes.insertAt`: insertion along the links, with rotations on the way back. It draws where it adds a node.
* `TreapNodes.walk`: the entries in order, with a stack of the nodes that are still to come.
* `TreapStore`: the storage of a map, with the stream of its priorities.
-/

namespace ProcessCalculus

/-- A stream of priorities, and how many of them were drawn. -/
structure PriorityStream where
  output : Nat → UInt64
  drawn : Nat := 0

namespace PriorityStream

/-- The stream of a seed, of which nothing was drawn. -/
def ofSeed (seed : UInt64) : PriorityStream :=
  { output := ChaCha.draw seed }

/-- The next priority, and the stream after it. -/
def next (stream : PriorityStream) : UInt64 × PriorityStream :=
  (stream.output stream.drawn, { stream with drawn := stream.drawn + 1 })

end PriorityStream

/-- The two sides of a node. -/
inductive Side
  | left
  | right
deriving DecidableEq

namespace Side

def other : Side → Side
  | left => right
  | right => left

/-- The side on which to go on after a comparison with the key of a node, unless the keys are equal. -/
def toward : Ordering → Option Side
  | .lt => some left
  | .eq => none
  | .gt => some right

theorem toward_eq_none_iff {o : Ordering} : toward o = none ↔ o = .eq := by
  cases o <;> simp [toward]

end Side

/-- A node of a treap, with the positions of its children. -/
structure TreapNode (α β : Type) where
  key : α
  value : β
  priority : UInt64
  left : Option Nat := none
  right : Option Nat := none

namespace TreapNode

variable {α β : Type}

/-- The position of the child on a side. -/
def child (side : Side) (node : TreapNode α β) : Option Nat :=
  match side with
  | .left => node.left
  | .right => node.right

/-- The node with another child on a side. -/
def setChild (side : Side) (link : Option Nat) (node : TreapNode α β) : TreapNode α β :=
  match side with
  | .left => { node with left := link }
  | .right => { node with right := link }

/-- The node with another value. -/
def mapValue (f : β → β) (node : TreapNode α β) : TreapNode α β :=
  { node with value := f node.value }

@[simp] theorem child_setChild (side : Side) (link : Option Nat) (node : TreapNode α β) :
    (node.setChild side link).child side = link := by
  cases side <;> rfl

@[simp] theorem child_other_setChild (side : Side) (link : Option Nat) (node : TreapNode α β) :
    (node.setChild side link).child side.other = node.child side.other := by
  cases side <;> rfl

@[simp] theorem child_setChild_other (side : Side) (link : Option Nat) (node : TreapNode α β) :
    (node.setChild side.other link).child side = node.child side := by
  cases side <;> rfl

@[simp] theorem key_setChild (side : Side) (link : Option Nat) (node : TreapNode α β) :
    (node.setChild side link).key = node.key := by
  cases side <;> rfl

@[simp] theorem value_setChild (side : Side) (link : Option Nat) (node : TreapNode α β) :
    (node.setChild side link).value = node.value := by
  cases side <;> rfl

@[simp] theorem priority_setChild (side : Side) (link : Option Nat) (node : TreapNode α β) :
    (node.setChild side link).priority = node.priority := by
  cases side <;> rfl

end TreapNode

/-- The nodes of a treap in the order in which they were entered. -/
abbrev TreapNodes (α β : Type) :=
  Array (TreapNode α β)

namespace TreapNodes

variable {α β : Type}

/-- Changes the node at a position. -/
def change (nodes : TreapNodes α β) (id : Nat) (f : TreapNode α β → TreapNode α β) : Option (TreapNodes α β) :=
  if id < nodes.size then some (nodes.modify id f) else none

/-- Turns the child on a side up into the place of its parent, which becomes the child of that one on the other side.
Answers with the position of the node that is on top then. -/
def rotate (nodes : TreapNodes α β) (side : Side) (id : Nat) : Option (TreapNodes α β × Nat) := do
  match (← nodes[id]?).child side with
  | none => return (nodes, id)
  | some child =>
    let inner := (← nodes[child]?).child side.other
    let nodes ← nodes.change id (·.setChild side inner)
    let nodes ← nodes.change child (·.setChild side.other (some id))
    return (nodes, child)

/-- Makes a node the child of another one, and turns it up if its priority is higher. Answers with the position of the
node that is on top then. -/
def attach (nodes : TreapNodes α β) (side : Side) (id child : Nat) : Option (TreapNodes α β × Nat) := do
  let nodes ← nodes.change id (·.setChild side (some child))
  if (← nodes[child]?).priority > (← nodes[id]?).priority then
    nodes.rotate side id
  else
    return (nodes, id)

/-- Puts a value under a key in the tree below a link, at most `depth` levels deep. A new key gets a new node, with the
priority that is drawn then. If there is an equal key, only its value is replaced. Answers with the stream afterwards,
with the position of the node that is on top then, and with the value that was replaced. -/
def insertAt (cmp : α → α → Ordering) (k : α) (v : β) :
    (depth : Nat) → (link : Option Nat) → TreapNodes α β → PriorityStream →
      Option (TreapNodes α β × PriorityStream × Nat × Option β)
  | 0, _, _, _ => none
  | _ + 1, none, nodes, stream =>
    let (priority, stream) := stream.next
    some (nodes.push ⟨k, v, priority, none, none⟩, stream, nodes.size, none)
  | depth + 1, some id, nodes, stream => do
    let node ← nodes[id]?
    match Side.toward (cmp k node.key) with
    | none => return (← nodes.change id (·.mapValue fun _ => v), stream, id, some node.value)
    | some side =>
      let (nodes, stream, child, replaced) ← insertAt cmp k v depth (node.child side) nodes stream
      let (nodes, top) ← nodes.attach side id child
      return (nodes, stream, top, replaced)

/-- The position of a key in the tree below a link, at most `depth` levels deep. -/
def find (nodes : TreapNodes α β) (cmp : α → α → Ordering) (k : α) :
    (depth : Nat) → (link : Option Nat) → Option (Option Nat)
  | _, none => some none
  | 0, some _ => none
  | depth + 1, some id => do
    let node ← nodes[id]?
    match Side.toward (cmp k node.key) with
    | none => return some id
    | some side => nodes.find cmp k depth (node.child side)

/-- Puts a node and all that is down its left side on a stack. -/
def pushLeftSpine (nodes : TreapNodes α β) :
    (depth : Nat) → (link : Option Nat) → (stack : List Nat) → Option (List Nat)
  | _, none, stack => some stack
  | 0, some _, _ => none
  | depth + 1, some id, stack => do
    nodes.pushLeftSpine depth (← nodes[id]?).left (id :: stack)

/-- The next entry in order and the stack after it, unless nothing is left. -/
def next? (nodes : TreapNodes α β) : List Nat → Option (Option ((α × β) × List Nat))
  | [] => some none
  | id :: stack => do
    let node ← nodes[id]?
    return some ((node.key, node.value), ← nodes.pushLeftSpine nodes.size node.right stack)

/-- The entries that are still to come, in at most `steps` steps. -/
def walk (nodes : TreapNodes α β) : (steps : Nat) → (stack : List Nat) → Option (List (α × β))
  | 0, _ => none
  | steps + 1, stack => do
    match ← nodes.next? stack with
    | none => return []
    | some (entry, stack) => return entry :: (← nodes.walk steps stack)

/-- The greatest depth of a node, given the greatest one so far and a stack of nodes with their depths. -/
def deepest (nodes : TreapNodes α β) : (steps : Nat) → (best : Nat) → (stack : List (Nat × Nat)) → Option Nat
  | _, best, [] => some best
  | 0, _, _ :: _ => none
  | steps + 1, best, (id, depth) :: stack => do
    let node ← nodes[id]?
    let children := node.right.toList ++ node.left.toList
    nodes.deepest steps (max best depth) (children.map (·, depth + 1) ++ stack)

end TreapNodes

/-- The storage of a map: the nodes, the position of the root, and the stream of the priorities. -/
structure TreapStore (α β : Type) where
  nodes : TreapNodes α β := #[]
  root : Option Nat := none
  priorities : PriorityStream

namespace TreapStore

variable {α β : Type}

def size (s : TreapStore α β) : Nat :=
  s.nodes.size

def isEmpty (s : TreapStore α β) : Bool :=
  s.nodes.isEmpty

/-- The position of a key. -/
def find (s : TreapStore α β) (cmp : α → α → Ordering) (k : α) : Option (Option Nat) :=
  s.nodes.find cmp k s.nodes.size s.root

/-- The value under a key. -/
def get (s : TreapStore α β) (cmp : α → α → Ordering) (k : α) : Option (Option β) := do
  match ← s.find cmp k with
  | none => return none
  | some id => return some (← s.nodes[id]?).value

/-- Whether there is a key. -/
def has (s : TreapStore α β) (cmp : α → α → Ordering) (k : α) : Option Bool := do
  return (← s.find cmp k).isSome

/-- Puts a value under a key, and answers with the value that it replaces. -/
def set (s : TreapStore α β) (cmp : α → α → Ordering) (k : α) (v : β) : Option (Option β × TreapStore α β) := do
  let (nodes, priorities, root, replaced) ← s.nodes.insertAt cmp k v (s.nodes.size + 1) s.root s.priorities
  return (replaced, { nodes, root := some root, priorities })

/-- Changes the value under a key, and answers with the value that was there. -/
def modify (s : TreapStore α β) (cmp : α → α → Ordering) (k : α) (f : β → β) :
    Option (Option β × TreapStore α β) := do
  match ← s.find cmp k with
  | none => return (none, s)
  | some id =>
    let node ← s.nodes[id]?
    return (some node.value, { s with nodes := ← s.nodes.change id (·.mapValue f) })

/-- The entries in the order of their keys. -/
def entries (s : TreapStore α β) : Option (List (α × β)) := do
  s.nodes.walk (s.nodes.size + 1) (← s.nodes.pushLeftSpine s.nodes.size s.root [])

def keys (s : TreapStore α β) : Option (List α) := do
  return (← s.entries).map Prod.fst

def values (s : TreapStore α β) : Option (List β) := do
  return (← s.entries).map Prod.snd

/-- Visits the entries in the order of their keys. -/
def forEach {σ : Type} (s : TreapStore α β) (visit : σ → α → β → σ) (start : σ) : Option σ := do
  return (← s.entries).foldl (fun seen e => visit seen e.1 e.2) start

/-- The number of nodes on the longest path from the root. -/
def height (s : TreapStore α β) : Option Nat :=
  s.nodes.deepest s.nodes.size 0 (s.root.toList.map (·, 1))

end TreapStore

end ProcessCalculus
