import ProcessCalculus.Program.Basic

/-!
# Guardedness

A process is unguarded if unfolding it can go on for ever without an action: if an infinite path
of unguarded steps starts from it. Such a step leads from a name to its definition, and from a
sum, a parallel composition, a restriction or a renaming to an operand. A depth-first search finds
these processes, since in a finite program such a path comes back to a node under search. The search is
written as a recursion, where a loop would keep a stack of nodes under search.

* `Guardedness.check`: the unguarded names, with marks kept from earlier searches.
* `Program.unguarded`: the unguarded names of a program.
-/

namespace ProcessCalculus

/-- The processes to which a node leads without an action. -/
def Node.unguardedChildren : Node ProcessId → List ProcessId
  | .null | .act .. | .delay .. => []
  | .named _ body => body.toList
  | node => node.children

namespace Guardedness

/-- What a search knows of a node: it is still under search, or found to be guarded or not. -/
inductive Mark
  | searching
  | guarded
  | unguarded
deriving DecidableEq

/-- The marks of the nodes met so far. -/
abbrev Marks := Std.TreeMap ProcessId Mark

/-- Whether a node is known, or has to be assumed, to be on or to lead to an unguarded cycle. -/
def Marks.suspects (marks : Marks) (id : ProcessId) : Bool :=
  marks[id]? == some .searching || marks[id]? == some .unguarded

/-- Marks everything reachable without an action, at most `depth` steps deep. -/
def visit (p : Program) : (depth : Nat) → ProcessId → EStateM Fault Marks Unit
  | 0, _ => throw .searchExhausted
  | depth + 1, id => do
    if (← get).contains id then
      return
    modify (·.insert id .searching)
    match p.node? id with
    | none => throw (.missingProcess id)
    | some node =>
      node.unguardedChildren.forM (visit p depth)
      let marks ← get
      let mark := if node.unguardedChildren.any marks.suspects then .unguarded else .guarded
      set (marks.insert id mark)

/-- Whether an identifier is marked unguarded once everything reachable from it is marked. -/
def isUnguarded (p : Program) (id : ProcessId) : EStateM Fault Marks Bool := do
  visit p p.depthBound id
  return (← get)[id]? == some .unguarded

/-- The unguarded ones of a list of processes, which are searched in order. -/
def unguardedAmong (p : Program) : List ProcessId → EStateM Fault Marks (List ProcessId)
  | [] => pure []
  | id :: ids => do
    let unguarded ← isUnguarded p id
    let rest ← unguardedAmong p ids
    return if unguarded then id :: rest else rest

/-- The unguarded named processes, in the order of their names. Marks of earlier searches are
used as they are. -/
def check (p : Program) : EStateM Fault Marks (List ProcessId) :=
  unguardedAmong p p.named

end Guardedness

/-- The unguarded named processes of a program, in the order of their names. -/
def Program.unguarded (p : Program) : Except Fault (List ProcessId) :=
  match Guardedness.check p ∅ with
  | .ok ids _ => .ok ids
  | .error e _ => .error e

end ProcessCalculus
