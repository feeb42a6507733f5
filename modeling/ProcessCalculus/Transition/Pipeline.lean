import ProcessCalculus.Transition.Expansion
import ProcessCalculus.Transition.Partition
import ProcessCalculus.Transition.Saturation
import ProcessCalculus.Transition.Simplified

/-!
# Pipelines

A pipeline answers with the transitions of processes: expansion at the bottom, and any number of
stages on top of it, each with notes of its own.

* `Pipeline.generator`: the generator of a list of stages.
* `Pipeline.successors`: an answer, and the pipeline with the notes it now has.
-/

namespace ProcessCalculus

/-- What a stage does with the answers below it. -/
inductive Stage
  | simplified
  | saturated
  | classes (classOf : ProcessId → ProcessClass)

/-- The notes that a stage keeps. -/
def Stage.Notes : Stage → Type
  | simplified => Simplified
  | saturated => Saturation
  | classes _ => KnownTransitions

namespace Pipeline

/-- The notes of the stages, from the outermost inwards, and of the expansion below them. -/
def Notes : List Stage → Type
  | [] => Expansion
  | stage :: stages => stage.Notes × Notes stages

/-- The generator of the stages, listed from the outermost inwards. -/
def generator : (stages : List Stage) → Generator (Notes stages)
  | [] => Expansion.successors
  | .simplified :: stages => Simplified.successors (generator stages)
  | .saturated :: stages => Saturation.successors identifierCount (generator stages)
  | .classes classOf :: stages => Classes.successors classOf (generator stages)

/-- The silent closure of a process, found by the outermost stage that saturates. -/
def closureWith : (stages : List Stage) → ProcessId → Pass (Notes stages) (Option (List ProcessId))
  | [], _ => pure none
  | .simplified :: stages, id => (closureWith stages id).inner
  | .saturated :: stages, id =>
    some <$> Saturation.silentClosure identifierCount (generator stages) id
  | .classes _ :: stages, id => (closureWith stages id).inner

/-- The notes of the expansion at the bottom. -/
def expansionOf : (stages : List Stage) → Notes stages → Expansion
  | [], notes => notes
  | _ :: stages, notes => expansionOf stages notes.2

end Pipeline

/-- Stages, from the outermost inwards, with their notes. -/
structure Pipeline where
  stages : List Stage
  notes : Pipeline.Notes stages

namespace Pipeline

/-- Expansion alone, with terms shared before. -/
def expansion (sharing : Sharing) : Pipeline :=
  ⟨[], { sharing }⟩

/-- The pipeline with a stage that simplifies targets, with forms found before. -/
def simplified (pipeline : Pipeline) (simplification : Simplification) : Pipeline :=
  ⟨.simplified :: pipeline.stages, ({ simplification }, pipeline.notes)⟩

/-- The pipeline with a stage that saturates. -/
def saturated (pipeline : Pipeline) : Pipeline :=
  ⟨.saturated :: pipeline.stages, ((∅ : Saturation), pipeline.notes)⟩

/-- The pipeline with a stage that merges the processes of each class. -/
def modulo (pipeline : Pipeline) (classOf : ProcessId → ProcessClass) : Pipeline :=
  ⟨.classes classOf :: pipeline.stages, ((∅ : KnownTransitions), pipeline.notes)⟩

/-- Runs a pass over the notes of a pipeline. -/
def run {α : Type} (pipeline : Pipeline) (p : Program)
    (pass : (stages : List Stage) → Pass (Notes stages) α) :
    Except Fault α × Program × Pipeline :=
  match pass pipeline.stages (p, pipeline.notes) with
  | .ok a (p, notes) => (.ok a, p, { pipeline with notes })
  | .error e (p, notes) => (.error e, p, { pipeline with notes })

/-- The transitions of a process. -/
def successors (pipeline : Pipeline) (p : Program) (id : ProcessId) :
    Except Fault Transitions × Program × Pipeline :=
  pipeline.run p fun stages => generator stages id

/-- The silent closure of a process, if there is a stage that saturates. -/
def silentClosure? (pipeline : Pipeline) (p : Program) (id : ProcessId) :
    Except Fault (Option (List ProcessId)) × Program × Pipeline :=
  pipeline.run p fun stages => closureWith stages id

/-- The number of processes expanded so far. -/
def expanded (pipeline : Pipeline) : Nat :=
  (expansionOf pipeline.stages pipeline.notes).known.size

end Pipeline

end ProcessCalculus
