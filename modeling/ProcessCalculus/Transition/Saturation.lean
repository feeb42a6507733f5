import ProcessCalculus.Transition.Generator

/-!
# Saturated transitions

A stage that hides silent steps: it answers with the visible steps and delays that the inner
generator allows after any number of silent steps, and lets any number of silent steps follow.
Both parts are searches along silent steps; they end if only finitely many processes are met.

* `Saturation.silentClosure`: the processes reached by silent steps alone.
* `Saturation.successors`: the saturated transitions.
-/

namespace ProcessCalculus

/-- A set of processes. -/
abbrev ProcessSet := TreapSet ProcessId compare

namespace Search

variable {τ β : Type}

/-- A depth-first search from the processes on a stack. `visit` answers where to go on from a
process, and adds what it finds there to what was found before. At most `limit` processes are
visited. The answer holds the processes seen and all that was found. -/
def run (visit : β → ProcessId → Pass τ (List ProcessId × β)) :
    (limit : Nat) → (stack : List ProcessId) → (seen : ProcessSet) → (found : β) →
      Pass τ (ProcessSet × β)
  | limit, stack, seen, found =>
    match limit, stack.dropWhile seen.contains with
    | _, [] => pure (seen, found)
    | 0, _ => throw .searchExhausted
    | limit + 1, id :: rest => do
      let (next, found) ← visit found id
      run visit limit (next ++ rest) (seen.insert id) found

end Search

/-- The saturated transitions and the silent closures found so far. -/
structure Saturation where
  known : KnownTransitions := ∅
  closures : Std.TreeMap ProcessId (List ProcessId) := ∅

namespace Saturation

instance : EmptyCollection Saturation := ⟨{}⟩

instance : Inhabited Saturation := ⟨∅⟩

/-- Where silent steps lead, the last target first. -/
def silentTargets (ts : Transitions) : List ProcessId :=
  (ts.targets .silent).reverse

variable {σ : Type} (limit : Nat) (inner : Generator σ)

/-- The processes reached by silent steps alone, in increasing order. -/
def silentClosure (id : ProcessId) : Pass (Saturation × σ) (List ProcessId) := do
  if let some closure := (← Pass.notes).1.closures[id]? then
    return closure
  let follow := fun (_ : Unit) id => do
    return (silentTargets (← (inner id).inner), ())
  let (seen, _) ← Search.run follow limit [id] ∅ ()
  let closure := seen.toList
  Pass.modifyNotes fun (n, m) => ({ n with closures := n.closures.insert id closure }, m)
  return closure

/-- Adds a step that is not silent, with all targets that silent steps lead on to. -/
def addSaturated (found : Transitions) (t : Transition) : Pass (Saturation × σ) Transitions := do
  let closure ← silentClosure limit inner t.target
  return found.insertMany (closure.map fun target => ⟨t.action, target⟩)

/-- Adds the saturated steps that start at a process, and answers where its silent steps lead. -/
def saturate (found : Transitions) (id : ProcessId) :
    Pass (Saturation × σ) (List ProcessId × Transitions) := do
  let steps ← (inner id).inner
  let seen := steps.toList.filter fun t => !t.action.isSilent
  let found ← seen.foldlM (addSaturated limit inner) found
  return (silentTargets steps, found)

/-- The saturated transitions of a process. -/
def successors : Generator (Saturation × σ) := fun id => do
  if let some known := (← Pass.notes).1.known[id]? then
    return known
  let (_, answer) ← Search.run (saturate limit inner) limit [id] ∅ ∅
  Pass.modifyNotes fun (n, m) => ({ n with known := n.known.insert id answer }, m)
  return answer

end Saturation

end ProcessCalculus
