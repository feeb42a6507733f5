import ProcessCalculus.Program.Simplification
import ProcessCalculus.Transition.Generator

/-!
# Transitions to simplified targets

A stage that answers with the transitions of the inner generator and replaces every target by its
simplified form.
-/

namespace ProcessCalculus

/-- What is known of simplified forms, and the answers given so far. -/
structure Simplified where
  simplification : Simplification := ∅
  known : KnownTransitions := ∅

namespace Simplified

instance : EmptyCollection Simplified := ⟨{}⟩

instance : Inhabited Simplified := ⟨∅⟩

/-- The transition with its target simplified. -/
def simplify (t : Transition) : Pass Simplified Transition := do
  let target ← (Simplification.simplify t.target).on simplification fun s n =>
    { n with simplification := s }
  return { t with target }

/-- The transitions of the inner generator, with simplified targets. -/
def successors {σ : Type} (inner : Generator σ) : Generator (Simplified × σ) := fun id => do
  if let some known := (← Pass.notes).1.known[id]? then
    return known
  let steps ← (inner id).inner
  let steps ← (steps.toList.mapM simplify).outer
  let answer := TreapSet.ofList steps
  Pass.modifyNotes fun (n, m) => ({ n with known := n.known.insert id answer }, m)
  return answer

end Simplified

end ProcessCalculus
