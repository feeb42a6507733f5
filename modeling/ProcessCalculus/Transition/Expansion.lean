import ProcessCalculus.Program.Guardedness
import ProcessCalculus.Program.Text
import ProcessCalculus.Program.Sharing
import ProcessCalculus.Transition.Generator

/-!
# Expansion of processes into transitions

The rules of the calculus give the transitions of a process from those of the processes it reaches
without an action. Expansion follows them depth first and keeps every set it finds. New targets
are interned, so that equal terms derived on different ways are one process. A process that needs
its own transitions has none that the rules determine, and is reported. The recursion carries the
processes being expanded, which a loop would have on its stack.

* `Node.steps`: the rules, for one term former.
* `Expansion.successors`: the transitions of a process.
-/

namespace ProcessCalculus

/-- The rules of the calculus: what a term former can do, given what the processes can do from
which it takes its steps. For a name and for a sum, the `components` are these processes. -/
def Node.steps (of : ProcessId → List Transition) (components : List ProcessId) :
    Node ProcessId → List (Action × Residual)
  | .null => []
  | .act a p => [(a, .process p)]
  | .delay d p => [(.delay d, .process p)]
  | .named .. | .sum .. =>
    components.flatMap fun c => (of c).map fun t => (t.action, .process t.target)
  | .parallel l r =>
    (of l).map (fun t => (t.action, .node (.parallel t.target r))) ++
      (of r).map (fun t => (t.action, .node (.parallel l t.target))) ++
      (of l).flatMap fun t =>
        ((of r).filter fun u => t.action.synchronises u.action).map fun u =>
          (.silent, .node (.parallel t.target u.target))
  | .restrict body labels =>
    ((of body).filter fun t => !t.action.label?.any labels.contains).map fun t =>
      (t.action, .node (.restrict t.target labels))
  | .rename body renames =>
    (of body).map fun t => (renames.apply t.action, .node (.rename t.target renames))

namespace Program

/-- The operands of nested sums from left to right, at most `depth` levels deep. -/
def operands (p : Program) : (depth : Nat) → ProcessId → Except Fault (List ProcessId)
  | 0, _ => .error .searchExhausted
  | depth + 1, id => do
    match ← p.node id with
    | .sum l r => return (← p.operands depth l) ++ (← p.operands depth r)
    | _ => return [id]

/-- The processes from which a process takes its steps: those it reaches without an action, except
that nested sums count as one. -/
def components (p : Program) (id : ProcessId) : Except Fault (List ProcessId) := do
  match ← p.node id with
  | .named name none => .error (.undefinedName name)
  | .sum .. => p.operands p.depthBound id
  | node => return node.unguardedChildren

/-- The name to report for a cycle of expansions that closes at `id`: the first name on the way
back from there along `path`, or else the text of the process. -/
def cycleName (p : Program) (id : ProcessId) (path : List ProcessId) : String :=
  let name? := (id :: path).findSome? fun id =>
    match p.node? id with
    | some (.named name _) => some name
    | _ => none
  name?.getD (p.text id)

/-- More levels than an expansion has, since it never holds an identifier twice. -/
def expansionBound (p : Program) : Nat :=
  p.size + identifierCount

end Program

/-- The shared terms, and the transitions found so far. -/
structure Expansion where
  sharing : Sharing := ∅
  known : KnownTransitions := ∅

namespace Expansion

instance : EmptyCollection Expansion := ⟨{}⟩

instance : Inhabited Expansion := ⟨∅⟩

/-- The process that is left after a step. A term former is interned. -/
def settle : Residual → Pass Expansion ProcessId
  | .process id => pure id
  | .node node => (Sharing.intern node).on sharing fun s e => { e with sharing := s }

/-- Finds the transitions of a node, once those of its components are known. -/
def derive (id : ProcessId) (components : List ProcessId) : Pass Expansion Unit := do
  let node ← Pass.node id
  let known := (← Pass.notes).known
  let steps := node.steps (fun c => (known.getD c ∅).toList) components
  let transitions ← steps.mapM fun (a, r) => do return Transition.mk a (← settle r)
  Pass.modifyNotes fun e => { e with known := e.known.insert id (TreapSet.ofList transitions) }

/-- The last of the components that is being expanded already. -/
def reentered? (known : KnownTransitions) (path components : List ProcessId) :
    Option ProcessId :=
  components.reverse.find? fun c => !known.contains c && path.contains c

/-- Finds the transitions of a process and of all it takes its steps from, at most `depth` levels
deep. `path` lists the processes being expanded, the latest first. -/
def expand : (depth : Nat) → (path : List ProcessId) → ProcessId → Pass Expansion Unit
  | 0, _, _ => throw .searchExhausted
  | depth + 1, path, id => do
    if (← Pass.notes).known.contains id then
      return
    let components ← ofExcept ((← Pass.program).components id)
    let path := id :: path
    if let some reentered := reentered? (← Pass.notes).known path components then
      throw (.unguardedUnfolding ((← Pass.program).cycleName reentered path))
    components.forM (expand depth path)
    derive id components

/-- The transitions of a process. -/
def successors : Generator Expansion := fun id => do
  expand (← Pass.program).expansionBound [] id
  return (← Pass.notes).known.getD id ∅

end Expansion

end ProcessCalculus
