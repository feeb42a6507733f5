import ProcessCalculus.Program.Pass
import ProcessCalculus.Transition.Basic

/-!
# Generators

A generator answers with the transitions of a process. Generators are stacked: one that works on
the answers of another keeps its own notes beside those of the other.
-/

namespace ProcessCalculus

/-- Answers with the transitions of a process; keeps notes of type `σ`. -/
abbrev Generator (σ : Type) := ProcessId → Pass σ Transitions

/-- Transitions found earlier, by the identifier they are kept under. -/
abbrev KnownTransitions := Std.TreeMap ProcessId Transitions

end ProcessCalculus
