import ProcessCalculus.Transition.Pipeline

/-!
# Exploration of reachable processes

A breadth-first walk along transitions, with what it sees at each process.
-/

namespace ProcessCalculus

/-- What an exploration says of one process. The text is taken after the transitions are found,
which may change nodes. -/
structure Exploration.Visit where
  id : ProcessId
  text : String
  answer : Except Fault Transitions

namespace Exploration

/-- The targets not seen yet, in order, and all seen with them. -/
def newTargets : (targets : List ProcessId) → (seen : ProcessSet) → List ProcessId × ProcessSet
  | [], seen => ([], seen)
  | id :: ids, seen =>
    if seen.contains id then newTargets ids seen
    else
      let (rest, seen) := newTargets ids (seen.insert id)
      (id :: rest, seen)

/-- Visits the processes of a queue, and behind them the targets not seen yet, at most `limit` in
all. A process whose transitions are not found adds no targets. -/
def walk : (limit : Nat) → (queue : List ProcessId) → (seen : ProcessSet) → Program → Pipeline →
    List Visit × Program × Pipeline
  | 0, _, _, p, pipeline => ([], p, pipeline)
  | _, [], _, p, pipeline => ([], p, pipeline)
  | limit + 1, id :: queue, seen, p, pipeline =>
    let (answer, p, pipeline) := pipeline.successors p id
    let targets :=
      match answer with
      | .ok ts => ts.toList.map Transition.target
      | .error _ => []
    let (targets, seen) := newTargets targets seen
    let visit : Visit := ⟨id, p.text id, answer⟩
    let (visits, p, pipeline) := walk limit (queue ++ targets) seen p pipeline
    (visit :: visits, p, pipeline)

/-- The first `limit` processes reachable from one, in breadth-first order. -/
def start (pipeline : Pipeline) (p : Program) (id : ProcessId) (limit : Nat) :
    List Visit × Program × Pipeline :=
  walk limit [id] (TreapSet.ofList [id]) p pipeline

end Exploration

end ProcessCalculus
