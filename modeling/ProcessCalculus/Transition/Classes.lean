import ProcessCalculus.Transition.Generator

/-!
# Transitions between classes of processes

A stage that merges the processes of a class into one: it answers for a process with the steps of
all members of its class, and leads to representatives of classes. Which class a process belongs
to is given by a function; a class that does not list the process asked for is a fault.
-/

namespace ProcessCalculus

/-- A class of processes and the process that stands for it. -/
structure ProcessClass where
  representative : ProcessId
  members : List ProcessId
deriving DecidableEq

namespace ProcessClass

/-- The class of one process. -/
def singleton (id : ProcessId) : ProcessClass :=
  ⟨id, [id]⟩

def contains (c : ProcessClass) (id : ProcessId) : Bool :=
  c.members.contains id

end ProcessClass

namespace Classes

variable {σ : Type} (classOf : ProcessId → ProcessClass)

/-- The class of a process, if it lists the process. -/
def classFor (id : ProcessId) : Except Fault ProcessClass :=
  if (classOf id).contains id then .ok (classOf id)
  else .error (.inconsistentClass id (classOf id).representative)

/-- The transition with the representative of its target's class as target. -/
def represent (t : Transition) : Except Fault Transition := do
  return ⟨t.action, (← classFor classOf t.target).representative⟩

/-- The steps of one member of a class, between classes. -/
def memberSteps (inner : Generator σ) (id : ProcessId) :
    Pass (KnownTransitions × σ) (List Transition) := do
  let steps ← (inner id).inner
  ofExcept (steps.toList.mapM (represent classOf))

/-- The transitions of the class of a process. -/
def successors (inner : Generator σ) : Generator (KnownTransitions × σ) := fun id => do
  let c ← ofExcept (classFor classOf id)
  if let some known := (← Pass.notes).1[c.representative]? then
    return known
  let steps ← c.members.mapM (memberSteps classOf inner)
  let answer := TreapSet.ofList steps.flatten
  Pass.modifyNotes fun (n, m) => (n.insert c.representative answer, m)
  return answer

end Classes

end ProcessCalculus
