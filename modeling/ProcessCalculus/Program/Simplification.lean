import ProcessCalculus.Program.Pass

/-!
# Simplification by laws of the calculus

A term is simplified bottom up: its subterms are replaced by their simplified forms, and then at
most one law is applied to the node itself. The result is recorded, so every node is simplified
once. This is written as a recursion over subterms, where a loop would keep a stack of nodes whose
subterms are not done.

* `Program.redex?`: the law that applies to a node, and what it leaves of it.
* `Simplification.simplify`, `Simplification.simplifyProgram`: simplification of one term and of
  all definitions.
-/

namespace ProcessCalculus

/-- The laws, from left to right. -/
inductive Law
  /-- `0 + P = P + 0 = P` -/
  | sumIdentity
  /-- `P + P = P` -/
  | sumIdempotence
  /-- `0 | P = P | 0 = P` -/
  | parallelIdentity
  /-- A restriction of `0` is `0`. -/
  | nullRestriction
  /-- A restriction of no label changes nothing. -/
  | emptyRestriction
  /-- Two restrictions in a row are one, of the labels of both. -/
  | restrictionMerge
  /-- A renaming of `0` is `0`. -/
  | nullRenaming
deriving DecidableEq

/-- The first law that applies to a node of the program, and what it leaves. -/
def Program.redex? (p : Program) : Node ProcessId → Option (Law × Residual)
  | .sum l r =>
    if p.isNull l then some (.sumIdentity, .process r)
    else if p.isNull r then some (.sumIdentity, .process l)
    else if l = r then some (.sumIdempotence, .process l)
    else none
  | .parallel l r =>
    if p.isNull l then some (.parallelIdentity, .process r)
    else if p.isNull r then some (.parallelIdentity, .process l)
    else none
  | .restrict body labels =>
    if p.isNull body then some (.nullRestriction, .process body)
    else if labels.isEmpty then some (.emptyRestriction, .process body)
    else
      match p.node? body with
      | some (.restrict inner innerLabels) =>
        some (.restrictionMerge, .node (.restrict inner (innerLabels ∪ labels)))
      | _ => none
  | .rename body _ => if p.isNull body then some (.nullRenaming, .process body) else none
  | _ => none

/-- The simplified form of each visited identifier, and the laws applied so far, the latest
first. -/
structure Simplification where
  forms : Std.TreeMap ProcessId ProcessId := ∅
  applied : List Law := []

namespace Simplification

instance : EmptyCollection Simplification := ⟨{}⟩

instance : Inhabited Simplification := ⟨∅⟩

/-- The simplified form of a visited identifier. -/
def form? (s : Simplification) (id : ProcessId) : Option ProcessId :=
  s.forms[id]?

/-- Whether an identifier is known to be its own simplified form. -/
def isStable (s : Simplification) (id : ProcessId) : Bool :=
  s.form? id == some id

/-- How often a law was applied. -/
def count (s : Simplification) (law : Law) : Nat :=
  s.applied.count law

/-- How often any law was applied. -/
def total (s : Simplification) : Nat :=
  s.applied.length

def record (id form : ProcessId) (s : Simplification) : Simplification :=
  { s with forms := s.forms.insert id form }

def recordLaw (law : Law) (s : Simplification) : Simplification :=
  { s with applied := law :: s.applied }

/-- Applies the first law that applies to a node over simplified subterms, and answers the form of
the node. A node that a law leaves is new and its own form. -/
def contract (id : ProcessId) (node : Node ProcessId) : Pass Simplification ProcessId := do
  match (← Pass.program).redex? node with
  | none => return id
  | some (law, .process form) =>
    Pass.modifyNotes (recordLaw law)
    return form
  | some (law, .node residual) =>
    let form ← Pass.add residual
    Pass.modifyNotes fun s => (s.record form form).recordLaw law
    return form

/-- Simplifies the term under an identifier, at most `depth` levels deep, and answers its form. -/
def visit : (depth : Nat) → ProcessId → Pass Simplification ProcessId
  | 0, _ => throw .searchExhausted
  | depth + 1, id => do
    if let some form := (← Pass.notes).form? id then
      return form
    let node ← Pass.node id
    let node ← node.traverse (visit depth)
    Pass.write id node
    let form ← contract id node
    Pass.modifyNotes (record id form)
    return form

/-- Simplifies the term under an identifier and answers its form. -/
def simplify (id : ProcessId) : Pass Simplification ProcessId := do
  visit (← Pass.program).depthBound id

/-- Simplifies the definition of a named process, to which the name then refers. -/
def simplifyNamed (id : ProcessId) : Pass Simplification Unit := do
  match ← Pass.node id with
  | .named name (some body) =>
    let body ← simplify body
    Pass.write id (.named name (some body))
  | _ => pure ()

/-- Simplifies all definitions of the program, in the order of their names. -/
def simplifyProgram : Pass Simplification Unit := do
  (← Pass.program).named.forM simplifyNamed

end Simplification

end ProcessCalculus
