import ProcessCalculus.Term.LabelSet
import ProcessCalculus.Term.Renaming

/-!
# Term formers

One level of a process term, over references `α` to its direct subterms. In a program the
references are process identifiers; other passes put results for the subterms there.

* `traverse`: visits the subterms from left to right and rebuilds the node over the results.
* `key`: what two nodes have in common when they stand for the same term, with the operands of a
  sum or a parallel composition in either order.
-/

namespace ProcessCalculus

open Std

/-- Names a node of a program. Identifiers are issued in order, from 0. -/
abbrev ProcessId := Nat

/-- How many identifiers there are: they are numbers of 32 bits. -/
def identifierCount : Nat := 4294967296

/-- A term former applied to subterms. A named process refers to the term that defines it, once
there is one; that term is not a subterm. -/
inductive Node (α : Type)
  | null
  | named (name : String) (body : Option ProcessId)
  | sum (left right : α)
  | parallel (left right : α)
  | act (action : Action) (next : α)
  | restrict (body : α) (labels : LabelSet)
  | rename (body : α) (renames : Renaming)
  | delay (duration : UInt32) (next : α)
deriving DecidableEq

/-- What is left of a term after a step or a simplification: a process of the program, or a term
former over such, which may not have an identifier yet. -/
inductive Residual
  | process (id : ProcessId)
  | node (node : Node ProcessId)
deriving DecidableEq

namespace Node

variable {α β : Type}

def isNull : Node α → Bool
  | null => true
  | _ => false

/-- A short word for the kind of term. -/
def kind : Node α → String
  | null => "null"
  | named .. => "named"
  | sum .. => "sum"
  | parallel .. => "parallel"
  | act .. => "prefix"
  | restrict .. => "restriction"
  | rename .. => "relabelling"
  | delay .. => "delay"

/-- The direct subterms, from left to right. -/
def children : Node α → List α
  | null | named .. => []
  | sum l r | parallel l r => [l, r]
  | act _ p | restrict p _ | rename p _ | delay _ p => [p]

/-- Visits the direct subterms from left to right and rebuilds the node over the results. -/
def traverse {m : Type → Type} [Monad m] (f : α → m β) : Node α → m (Node β)
  | null => pure null
  | named name body => pure (named name body)
  | sum l r => do
    let l ← f l
    let r ← f r
    pure (sum l r)
  | parallel l r => do
    let l ← f l
    let r ← f r
    pure (parallel l r)
  | act a p => do
    let p ← f p
    pure (act a p)
  | restrict p labels => do
    let p ← f p
    pure (restrict p labels)
  | rename p renames => do
    let p ← f p
    pure (rename p renames)
  | delay d p => do
    let p ← f p
    pure (delay d p)

/-- Two operands in the order of their identifiers. -/
def ordered (f : ProcessId → ProcessId → Node ProcessId) (l r : ProcessId) : Node ProcessId :=
  if l ≤ r then f l r else f r l

/-- The node without what does not distinguish terms: the order of the operands of a sum or a
parallel composition, and the definition behind a name. -/
def key : Node ProcessId → Node ProcessId
  | sum l r => ordered sum l r
  | parallel l r => ordered parallel l r
  | named name _ => named name none
  | node => node

/-- Whether a term is a restriction or a renaming of another. -/
def isOperator : Node α → Bool
  | restrict .. | rename .. => true
  | _ => false

/-! ### An order on nodes -/

/-- The kind of a node as a number. -/
def rank : Node α → Nat
  | null => 0
  | named .. => 1
  | sum .. => 2
  | parallel .. => 3
  | act .. => 4
  | restrict .. => 5
  | rename .. => 6
  | delay .. => 7

/-- The parts of a node to compare within one kind, with neutral values where there is none. -/
def nameKey : Node α → String
  | named name _ => name
  | _ => ""

@[inherit_doc nameKey] def bodyKey : Node α → Option ProcessId
  | named _ body => body
  | _ => none

@[inherit_doc nameKey] def childrenKey (node : Node ProcessId) : List ProcessId :=
  node.children

@[inherit_doc nameKey] def actionKey : Node α → Action
  | act a _ => a
  | _ => .silent

@[inherit_doc nameKey] def labelsKey : Node α → LabelSet
  | restrict _ labels => labels
  | _ => ∅

@[inherit_doc nameKey] def renamingKey : Node α → Renaming
  | rename _ renames => renames
  | _ => ∅

@[inherit_doc nameKey] def durationKey : Node α → UInt32
  | delay d _ => d
  | _ => 0

/-- Nodes are ordered by kind, and within one kind by their parts. -/
instance : Ord (Node ProcessId) where
  compare := compareLex (compareOn rank) <| compareLex (compareOn childrenKey) <|
    compareLex (compareOn nameKey) <| compareLex (compareOn bodyKey) <|
    compareLex (compareOn actionKey) <| compareLex (compareOn labelsKey) <|
    compareLex (compareOn renamingKey) (compareOn durationKey)

instance : TransOrd (Node ProcessId) :=
  inferInstanceAs <| TransCmp <| compareLex (compareOn rank) <|
    compareLex (compareOn childrenKey) <| compareLex (compareOn nameKey) <|
    compareLex (compareOn bodyKey) <| compareLex (compareOn actionKey) <|
    compareLex (compareOn labelsKey) <| compareLex (compareOn renamingKey) (compareOn durationKey)

instance : LawfulEqOrd (Node ProcessId) where
  eq_of_compare {a b} h := by
    have h : (compareLex (compareOn rank) <| compareLex (compareOn childrenKey) <|
      compareLex (compareOn nameKey) <| compareLex (compareOn bodyKey) <|
      compareLex (compareOn actionKey) <| compareLex (compareOn labelsKey) <|
      compareLex (compareOn renamingKey) (compareOn durationKey)) a b = .eq := h
    simp only [compareLex_eq_eq, compareOn, Std.compare_eq_iff_eq] at h
    obtain ⟨hr, hc, hn, hb, ha, hl, hf, hd⟩ := h
    cases a <;> cases b <;>
      simp_all [rank, childrenKey, children, nameKey, bodyKey, actionKey, labelsKey, renamingKey,
        durationKey]

end Node

end ProcessCalculus
