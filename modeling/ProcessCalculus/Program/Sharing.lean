import ProcessCalculus.Program.Pass

/-!
# Sharing of equal terms

Sharing gives equal terms one canonical node. It works bottom up: the subterms of a node are
replaced by their canonical nodes, and the first node met with the resulting key becomes canonical
for all later ones. This is written as a recursion over subterms, where a loop would keep a stack of nodes
whose subterms are not done. Restrictions and renamings already in a program are left apart; those that are
interned later are shared as well.

* `Sharing.share`, `Sharing.shareProgram`: sharing of one term and of all definitions.
* `Sharing.intern`: the node for a term former, allocated only if no equal one is known.
-/

namespace ProcessCalculus

/-- How many nodes a sharing run visited, and how many of them are represented by another. -/
structure Sharing.Report where
  visited : Nat := 0
  merged : Nat := 0
deriving DecidableEq

/-- What is known about shared terms: the canonical node of each key, the canonical node of each
visited identifier, and counts. -/
structure Sharing where
  terms : Std.TreeMap (Node ProcessId) ProcessId := ∅
  canonical : Std.TreeMap ProcessId ProcessId := ∅
  report : Sharing.Report := {}

namespace Sharing

instance : EmptyCollection Sharing := ⟨{}⟩

instance : Inhabited Sharing := ⟨∅⟩

/-- The canonical node of a visited identifier. -/
def canonical? (s : Sharing) (id : ProcessId) : Option ProcessId :=
  s.canonical[id]?

/-- Enters a node whose subterms are canonical, and decides on its own canonical node: the one
known under its key, or else itself. -/
def enter (id : ProcessId) (node : Node ProcessId) (s : Sharing) : Sharing :=
  let known := if node.isOperator then none else s.terms[node.key]?
  let canonical := known.getD id
  { terms := if node.isOperator then s.terms else s.terms.insertIfNew node.key id
    canonical := s.canonical.insert id canonical
    report :=
      { visited := s.report.visited + 1
        merged := s.report.merged + if canonical = id then 0 else 1 } }

/-- Shares the term under an identifier, at most `depth` levels deep, and answers its canonical
node. -/
def visit : (depth : Nat) → ProcessId → Pass Sharing ProcessId
  | 0, _ => throw .searchExhausted
  | depth + 1, id => do
    if let some canonical := (← Pass.notes).canonical? id then
      return canonical
    let node ← Pass.node id
    let node ← node.traverse (visit depth)
    Pass.write id node
    Pass.modifyNotes (enter id node)
    return ((← Pass.notes).canonical? id).getD id

/-- Shares the term under an identifier and answers its canonical node. -/
def share (id : ProcessId) : Pass Sharing ProcessId := do
  visit (← Pass.program).depthBound id

/-- Shares a named process and its definition, to which the name then refers. -/
def shareNamed (id : ProcessId) : Pass Sharing Unit := do
  let _ ← share id
  match ← Pass.node id with
  | .named name (some body) =>
    let body ← share body
    Pass.write id (.named name (some body))
  | _ => pure ()

/-- Shares all definitions of the program, in the order of their names, and reports on this
run. -/
def shareProgram : Pass Sharing Report := do
  let before := (← Pass.notes).report
  (← Pass.program).named.forM shareNamed
  let after := (← Pass.notes).report
  return ⟨after.visited - before.visited, after.merged - before.merged⟩

/-- The node of a term former over canonical subterms: the one known under its key, or else a new
one. -/
def intern (node : Node ProcessId) : Pass Sharing ProcessId := do
  match (← Pass.notes).terms[node.key]? with
  | some id => return id
  | none =>
    let id ← Pass.add node
    Pass.modifyNotes fun s =>
      { s with
        terms := s.terms.insert node.key id
        canonical := s.canonical.insert id id }
    return id

end Sharing

end ProcessCalculus
