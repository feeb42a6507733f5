import ProcessCalculus.Program.Digest
import ProcessCalculus.Transition.Exploration
import ProcessCalculus.Explorer.Settings

/-!
# Explorers

An explorer is a program prepared for questions about its transitions: it is complete, its terms
are shared and, if wanted, simplified, its guardedness is known, and a pipeline stands ready.

* `Explorer.prepare`: the explorer of a program, or why there is none.
* `Explorer.successors`, `Explorer.explore`: transitions and reachable processes.
* `Quotient`: transitions between classes of the explorer's processes.
-/

namespace ProcessCalculus

/-- A prepared program, and what was learnt in preparing it. -/
structure Explorer where
  program : Program
  pipeline : Pipeline
  settings : Settings
  unguarded : List ProcessId
  digest : Digest
  sharing : Sharing.Report
  simplifications : Nat

namespace Explorer

/-- Simplifies the program if the settings ask for it. -/
def simplify (settings : Settings) : EStateM Fault Program Simplification := fun p =>
  if settings.simplify then
    match Simplification.simplifyProgram (p, ∅) with
    | .ok () (p, s) => .ok s p
    | .error e (p, _) => .error e p
  else .ok ∅ p

/-- Shares the terms of the program. -/
def share : EStateM Fault Program (Sharing × Sharing.Report) := fun p =>
  match Sharing.shareProgram (p, ∅) with
  | .ok report (p, s) => .ok (s, report) p
  | .error e (p, _) => .error e p

/-- Refuses a program with unguarded definitions if the settings ask for it. -/
def refuse (settings : Settings) (p : Program) (unguarded : List ProcessId) : Except Fault Unit :=
  if settings.refuseUnguarded && !unguarded.isEmpty then
    .error (.unguardedDefinitions (unguarded.map p.text))
  else .ok ()

/-- The pipeline that the settings ask for. -/
def pipelineFor (settings : Settings) (sharing : Sharing) (simplification : Simplification) :
    Pipeline :=
  let pipeline := Pipeline.expansion sharing
  let pipeline := if settings.simplify then pipeline.simplified simplification else pipeline
  if settings.saturate then pipeline.saturated else pipeline

/-- The steps of the preparation, on the program itself. -/
def prepareWith (settings : Settings) : EStateM Fault Program Explorer := do
  if let name :: _ := (← get).undefinedNames then
    throw (.undefinedName name)
  let digest ← ofExcept (Digest.ofProgram (← get))
  let (shared, report) ← share
  let simplification ← simplify settings
  let p ← get
  let unguarded ← ofExcept p.unguarded
  ofExcept (refuse settings p unguarded)
  return {
    program := p
    pipeline := pipelineFor settings shared simplification
    settings
    unguarded
    digest
    sharing := report
    simplifications := simplification.total }

/-- The explorer of a program, or why there is none. -/
def prepare (p : Program) (settings : Settings) : Except Fault Explorer :=
  match prepareWith settings p with
  | .ok explorer _ => .ok explorer
  | .error e _ => .error e

/-- The transitions of a process, and the explorer as it is after the question. -/
def successors (e : Explorer) (id : ProcessId) : Except Fault Transitions × Explorer :=
  let (answer, program, pipeline) := e.pipeline.successors e.program id
  (answer, { e with program, pipeline })

/-- The transitions of a named process. -/
def successorsOf (e : Explorer) (name : String) : Except Fault Transitions × Explorer :=
  match e.program.lookup name with
  | .ok id => e.successors id
  | .error fault => (.error fault, e)

/-- The first `limit` processes reachable from one, in breadth-first order. -/
def explore (e : Explorer) (id : ProcessId) (limit : Nat) : List Exploration.Visit × Explorer :=
  let (visits, program, pipeline) := Exploration.start e.pipeline e.program id limit
  (visits, { e with program, pipeline })

/-- The written form as a record of the main facts. -/
def recordText (e : Explorer) : String :=
  Text.record "Session"
    [("config", e.settings.recordText), ("nodes", toString e.program.size),
      ("unguarded", Text.bracketed (e.unguarded.map ProcessId.text)),
      ("fingerprint", e.digest.fullText)]

/-- Transitions between classes of an explorer's processes. -/
structure Quotient where
  explorer : Explorer
  classOf : ProcessId → ProcessClass
  known : KnownTransitions := ∅

namespace Quotient

/-- The transitions of the class of a process. -/
def successors (q : Quotient) (id : ProcessId) : Except Fault Transitions × Quotient :=
  let e := q.explorer
  let generator := Classes.successors q.classOf (Pipeline.generator e.pipeline.stages)
  match generator id (e.program, q.known, e.pipeline.notes) with
  | .ok answer (program, known, notes) =>
    (.ok answer, { q with known, explorer := { e with program, pipeline.notes := notes } })
  | .error fault (program, known, notes) =>
    (.error fault, { q with known, explorer := { e with program, pipeline.notes := notes } })

/-- The transitions of the class of a named process. -/
def successorsOf (q : Quotient) (name : String) : Except Fault Transitions × Quotient :=
  match q.explorer.program.lookup name with
  | .ok id => q.successors id
  | .error fault => (.error fault, q)

end Quotient

end Explorer

end ProcessCalculus
