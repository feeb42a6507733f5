import ProcessCalculus.Program.Basic

/-!
# The written form of terms

Terms are written with as few parentheses as their binding allows: choice binds weakest, then
parallel composition, then prefixes, then the suffixes of restriction and renaming. Both choice
and parallel composition are written without parentheses for a nested one of the same kind.
-/

namespace ProcessCalculus

namespace Node

/-- How strongly a term former binds: the weaker of two is the one that needs parentheses. -/
def strength {α : Type} : Node α → Nat
  | sum .. => 0
  | parallel .. => 1
  | act .. | delay .. => 2
  | restrict .. | rename .. => 3
  | null | named .. => 4

/-- The node as text, over the texts of its subterms, which `sub` writes so that they bind at
least as strongly as asked. -/
def textWith {α : Type} (sub : Nat → α → String) : Node α → String
  | null => "0"
  | named name _ => name
  | sum l r => sub 0 l ++ " + " ++ sub 0 r
  | parallel l r => sub 1 l ++ " | " ++ sub 1 r
  | act a p => a.text ++ "." ++ sub 2 p
  | delay d p => toString d.toNat ++ "." ++ sub 2 p
  | restrict p labels => sub 3 p ++ " \\ \x7b" ++ Text.join ", " labels.toList ++ "\x7d"
  | rename p renames =>
    sub 3 p ++ Text.bracketed (renames.renames.map fun e => e.new ++ "/" ++ e.old)

end Node

namespace Program

/-- The term under an identifier, in parentheses if it binds more weakly than `strength`. No more
than `depth` levels are written. -/
def textAt (p : Program) : (depth strength : Nat) → ProcessId → String
  | 0, _, _ => "…"
  | depth + 1, strength, id =>
    match p.node? id with
    | none => "<missing " ++ ProcessId.text id ++ ">"
    | some node =>
      let text := node.textWith (p.textAt depth)
      if node.strength < strength then "(" ++ text ++ ")" else text

/-- The written form of the term under an identifier. -/
def text (p : Program) (id : ProcessId) : String :=
  p.textAt p.depthBound 0 id

end Program

end ProcessCalculus
