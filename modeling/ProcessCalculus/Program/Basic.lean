import Std.Data.TreeMap
import ProcessCalculus.Program.Fault
import ProcessCalculus.Program.Pool

/-!
# Programs

A program is a pool of nodes and a table of process names. Terms are built bottom up: a node
refers to its subterms by the identifiers issued for them. A name has one node, which exists from
the first mention of the name and later refers to the term that defines it.

* `stored?_add`, `stored?_write`, `node?_add`, `node?_write`: what stands in a program after a node is added or
  replaced.
* `write_eq_self`: a node is written over itself.
* `lookup?_mention`: a name that was mentioned is known.
-/

namespace ProcessCalculus

/-- A node with the identifier that was issued for it. -/
structure ProcessNode where
  id : ProcessId
  node : Node ProcessId

/-- Nodes under their identifiers, and the named processes. -/
structure Program where
  slots : Pool ProcessNode := ∅
  names : Std.TreeMap String ProcessId := ∅

namespace Program

instance : EmptyCollection Program := ⟨{}⟩

instance : Inhabited Program := ⟨∅⟩

/-- The number of nodes, which is also the next identifier. -/
def size (p : Program) : Nat :=
  p.slots.size

/-- What is stored under an identifier. -/
def stored? (p : Program) (id : ProcessId) : Option ProcessNode :=
  p.slots.get? id

def node? (p : Program) (id : ProcessId) : Option (Node ProcessId) :=
  (p.stored? id).map ProcessNode.node

/-- The nodes in the order in which they are stored. -/
def nodes (p : Program) : Pool (Node ProcessId) :=
  p.slots.map ProcessNode.node

/-- The node under an identifier, or the fault that there is none. -/
def node (p : Program) (id : ProcessId) : Except Fault (Node ProcessId) :=
  match p.node? id with
  | some node => .ok node
  | none => .error (.missingProcess id)

/-- Issues the next identifier for a node. Subterms are not checked. -/
def add (p : Program) (node : Node ProcessId) : ProcessId × Program :=
  (p.size, { p with slots := p.slots.allocate ⟨p.size, node⟩ })

/-- Puts a node in the place of another, which leaves it its identifier. -/
def write (p : Program) (id : ProcessId) (node : Node ProcessId) : Program :=
  { p with slots := p.slots.modify id fun stored => { stored with node } }

/-- The identifier of a named process. -/
def lookup? (p : Program) (name : String) : Option ProcessId :=
  p.names[name]?

/-- The identifier of a named process, or the fault that the name is unknown. -/
def lookup (p : Program) (name : String) : Except Fault ProcessId :=
  match p.lookup? name with
  | some id => .ok id
  | none => .error (.unknownName name)

/-- The process of a name. The first mention of a name gives it a node without a definition. -/
def mention (p : Program) (name : String) : ProcessId × Program :=
  match p.lookup? name with
  | some id => (id, p)
  | none =>
    let (id, p) := p.add (.named name none)
    (id, { p with names := p.names.insert name id })

/-- Defines a name by an existing term. A name is defined once. -/
def define (name : String) (body : ProcessId) : EStateM Fault Program ProcessId := do
  if ((← get).node? body).isNone then
    throw (.missingProcess body)
  let id ← modifyGet (·.mention name)
  match (← get).node? id with
  | some (.named own none) =>
    modify (·.write id (.named own (some body)))
    return id
  | _ => throw (.alreadyDefined name)

/-- The named processes in the order of their names. -/
def named (p : Program) : List ProcessId :=
  p.names.toList.map Prod.snd

/-- The term that defines a process, if it is a named one with a definition; or the fault that
there is no such process. -/
def body (p : Program) (id : ProcessId) : Except Fault (Option ProcessId) :=
  match p.node? id with
  | some (.named _ body) => .ok body
  | some _ => .ok none
  | none => .error (.missingProcess id)

/-- The names without a definition, in order. -/
def undefinedNames (p : Program) : List String :=
  p.named.filterMap fun id =>
    match p.node? id with
    | some (.named name none) => some name
    | _ => none

/-- Whether an identifier stands for the inactive process. -/
def isNull (p : Program) (id : ProcessId) : Bool :=
  (p.node? id).any Node.isNull

/-- More levels than a term of the program has, if no term is a subterm of itself. -/
def depthBound (p : Program) : Nat :=
  p.size + 1

@[simp] theorem size_add (p : Program) (node : Node ProcessId) :
    (p.add node).2.size = p.size + 1 :=
  Pool.size_allocate p.slots ⟨p.size, node⟩

@[simp] theorem size_write (p : Program) (id : ProcessId) (node : Node ProcessId) :
    (p.write id node).size = p.size :=
  Pool.size_modify p.slots id _

theorem stored?_add (p : Program) (node : Node ProcessId) (id : ProcessId) :
    (p.add node).2.stored? id = if id = p.size then some ⟨p.size, node⟩ else p.stored? id :=
  Pool.get?_allocate p.slots ⟨p.size, node⟩ id

theorem stored?_write (p : Program) (id : ProcessId) (node : Node ProcessId) (other : ProcessId) :
    (p.write id node).stored? other =
      if id = other then (p.stored? id).map fun stored => { stored with node } else p.stored? other :=
  Pool.get?_modify p.slots id _ other

theorem node?_add (p : Program) (node : Node ProcessId) (id : ProcessId) :
    (p.add node).2.node? id = if id = p.size then some node else p.node? id := by
  rw [node?, stored?_add]
  split <;> rfl

theorem node?_write (p : Program) (id : ProcessId) (node : Node ProcessId) (other : ProcessId) :
    (p.write id node).node? other =
      if id = other then (p.node? id).map fun _ => node else p.node? other := by
  rw [node?, stored?_write]
  split
  · rw [node?, Option.map_map, Option.map_map]
    rfl
  · rfl

/-- A node that stands there already is written over itself. -/
theorem write_eq_self {p : Program} {id : ProcessId} {node : Node ProcessId} (h : p.node? id = some node) :
    p.write id node = p := by
  have hslots : p.slots.modify id (fun stored => { stored with node }) = p.slots := by
    refine Pool.modify_eq_self fun stored hstored => ?_
    obtain ⟨stored', hstored', rfl⟩ := Option.map_eq_some_iff.1 h
    rw [stored?, hstored] at hstored'
    cases hstored'
    rfl
  rw [write, hslots]

/-- Once a name is mentioned, the table of names knows its process. -/
theorem lookup?_mention (p : Program) (name : String) :
    (p.mention name).2.lookup? name = some (p.mention name).1 := by
  unfold mention
  split
  · assumption
  · simp [lookup?, add]

end Program

end ProcessCalculus
