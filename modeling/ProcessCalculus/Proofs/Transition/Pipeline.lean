import ProcessCalculus.Transition.Pipeline
import ProcessCalculus.Proofs.Transition.Saturation
import ProcessCalculus.Proofs.Transition.Simplified

/-!
# Correct pipelines

Any stack of stages that simplify and saturate answers with the steps of the rules, saturated as often as there are
stages that do so. Stages that merge classes are left out: what they merge need not make the same steps.

* `Pipeline.steps`: the steps that a stack of stages should answer with.
* `Pipeline.correct`, `Pipeline.correct_unless_cyclic`: every stack meets the obligations of a generator, for guarded
  definitions and for any.
* `Pipeline.Exhausted`, `Pipeline.lt_size_of_exhausted`: the one reason not to answer for a process of the program if
  definitions are guarded. The program is then larger than the number of identifiers.
-/

namespace ProcessCalculus

open Term

namespace Pipeline

/-- The answers that the outermost stage remembers. -/
def answered : (stages : List Stage) → Notes stages → KnownTransitions
  | [], notes => Expansion.known notes
  | .simplified :: _, notes => Simplified.known notes.1
  | .saturated :: _, notes => Saturation.known notes.1
  | .classes _ :: _, notes => notes.1

/-- Some stage that saturates has met a silent closure with more processes than there are identifiers. -/
def Exhausted : (stages : List Stage) → Notes stages → Prop
  | [], _ => False
  | .saturated :: stages, notes =>
    Exhausted stages notes.2 ∨ (answered stages notes.2).Exceeds identifierCount
  | _ :: stages, notes => Exhausted stages notes.2

/-- Which faults of the stages are excused, if those that `blame` holds of are at the bottom. -/
def Excused (blame : Fault → Prop) : (stages : List Stage) → Fault → Notes stages → Prop
  | [], fault, _ => blame fault
  | .saturated :: stages, fault, notes =>
    Saturation.Excused (answered stages) (Excused blame stages) identifierCount fault notes
  | _ :: stages, fault, notes => Excused blame stages fault notes.2

/-- The steps that the stages answer with. -/
def steps (defs : String → Term → Prop) : List Stage → Term → Action → Term → Prop
  | [] => Step defs
  | .simplified :: stages => steps defs stages
  | .saturated :: stages => Saturated (steps defs stages)
  | .classes _ :: _ => fun _ _ _ => False

/-- The invariants of all stages. -/
def Invariant (defs : String → Term → Prop) : (stages : List Stage) → Reading → Notes stages → Prop
  | [], r, notes => Expansion.Sound defs Simplifies r notes
  | .simplified :: stages, r, notes =>
    Simplified.Sound defs (steps defs stages) r notes.1 ∧ Invariant defs stages r notes.2
  | .saturated :: stages, r, notes => Saturation.Invariant (steps defs stages) (Invariant defs stages) r notes
  | .classes _ :: _, _, _ => False

variable {defs : String → Term → Prop}

/-- What may stand for a term makes the same steps, saturated or not. -/
theorem isBisimulation_steps (stages : List Stage) :
    IsBisimulation (steps defs stages) (steps defs stages) Simplifies := by
  induction stages with
  | nil => exact Simplifies.precongruence.isBisimulation_self defs
  | cons stage stages ih =>
    cases stage with
    | simplified => exact ih
    | saturated => exact ih.saturated
    | classes classOf => exact ⟨fun _ h => h.elim, fun _ h => h.elim⟩

/-- Every stack of stages meets the obligations that expansion meets at the bottom. -/
theorem correct_of_expansion {blame : Fault → Prop}
    (h : Expansion.successors.Correct defs (Step defs) Expansion.known (fun fault _ => blame fault)
      (Expansion.Sound defs Simplifies)) (stages : List Stage) :
    (generator stages).Correct defs (steps defs stages) (answered stages) (Excused blame stages)
      (Invariant defs stages) := by
  induction stages with
  | nil => exact h
  | cons stage stages ih =>
    cases stage with
    | simplified => exact Simplified.correct ih
    | saturated => exact Saturation.correct ih (isBisimulation_steps stages)
    | classes classOf => exact ⟨False.elim, False.elim, fun h => h.elim, fun _ h => h.elim⟩

/-- Apart from the faults at the bottom, only those of exhausted searches are excused. -/
theorem Excused.cases {blame : Fault → Prop} {stages : List Stage} {fault : Fault} {notes : Notes stages}
    (h : Excused blame stages fault notes) : blame fault ∨ fault = .searchExhausted ∧ Exhausted stages notes := by
  induction stages with
  | nil => exact .inl h
  | cons stage stages ih =>
    cases stage with
    | simplified | classes => exact ih h
    | saturated =>
      rcases h with h | ⟨rfl, hex⟩
      · exact (ih h).imp_right fun ⟨hfault, hex⟩ => ⟨hfault, .inl hex⟩
      · exact .inr ⟨rfl, .inr hex⟩

theorem correct {names : String → Nat} (hnames : ∀ name t, defs name t → t.unfolding names < names name)
    (stages : List Stage) :
    (generator stages).Correct defs (steps defs stages) (answered stages) (fun _ => Exhausted stages)
      (Invariant defs stages) :=
  (correct_of_expansion (Expansion.correct hnames) stages).mono fun _ _ h => (h.cases.resolve_left id).2

/-- However definitions are made, for a process of the program every stack of stages answers or blames a name, unless a
search is exhausted. -/
theorem correct_unless_cyclic (stages : List Stage) :
    (generator stages).Correct defs (steps defs stages) (answered stages)
      (fun fault notes => (∃ name, fault = .unguardedUnfolding name) ∨
        fault = .searchExhausted ∧ Exhausted stages notes)
      (Invariant defs stages) :=
  (correct_of_expansion Expansion.correct_unless_cyclic stages).mono fun _ _ => Excused.cases

private theorem Invariant.answers {stages : List Stage} {r : Reading} {notes : Notes stages}
    (h : Invariant defs stages r notes) : (answered stages notes).Answer (steps defs stages) Simplifies r := by
  cases stages with
  | nil => exact Expansion.Sound.answers h
  | cons stage stages =>
    cases stage with
    | simplified => exact h.1.answers
    | saturated => exact h.1.answers
    | classes classOf => exact h.elim

theorem lt_size_of_exhausted {stages : List Stage} {r : Reading} {notes : Notes stages}
    (h : Invariant defs stages r notes) (hex : Exhausted stages notes) : identifierCount < r.program.size := by
  induction stages with
  | nil => exact hex.elim
  | cons stage stages ih =>
    cases stage with
    | simplified => exact ih h.2 hex
    | saturated =>
      rcases hex with hex | hex
      · exact ih h.2 hex
      · exact Saturation.lt_size_of_exceeds (Invariant.answers h.2) (by decide) hex
    | classes classOf => exact h.elim

end Pipeline

end ProcessCalculus
