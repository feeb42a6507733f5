import ProcessCalculus.Term.Node
import ProcessCalculus.Text.Layout

/-!
# Faults

Why a request on a program fails, and the sentence that reports it.
-/

namespace ProcessCalculus

/-- The written form of an identifier. -/
def ProcessId.text (id : ProcessId) : String :=
  "ProcessId(" ++ toString id ++ ")"

/-- The cause of a failed request. -/
inductive Fault
  /-- No node has this identifier. -/
  | missingProcess (id : ProcessId)
  /-- The program does not know the name. -/
  | unknownName (name : String)
  /-- The name is used, but nothing defines it. -/
  | undefinedName (name : String)
  /-- The name has a definition already. -/
  | alreadyDefined (name : String)
  /-- The process reaches itself again without performing an action. -/
  | unguardedUnfolding (name : String)
  /-- These definitions are not guarded. -/
  | unguardedDefinitions (names : List String)
  /-- The class given for a process, under this representative, does not list the process. -/
  | inconsistentClass (process representative : ProcessId)
  /-- The identifier stands in two classes. -/
  | overlappingClasses (id : ProcessId)
  /-- Bytes that do not encode a value of the wanted type. -/
  | malformed (reason : String)
  /-- A search met its bound. Searches in well-formed programs of 32-bit identifiers never do. -/
  | searchExhausted
deriving DecidableEq

/-- The sentence that reports a fault. -/
def Fault.message : Fault → String
  | missingProcess id => "process " ++ ProcessId.text id ++ " not found"
  | unknownName name => "unknown process name '" ++ name ++ "'"
  | undefinedName name => "process '" ++ name ++ "' is referenced but never defined"
  | alreadyDefined name => "process '" ++ name ++ "' is already defined"
  | unguardedUnfolding name =>
    "process '" ++ name ++ "' unfolds into itself without an action prefix"
  | unguardedDefinitions names =>
    "unguarded recursive definitions: " ++ Text.join ", " names
  | inconsistentClass process representative =>
    "collapse representative " ++ ProcessId.text representative ++ " does not cover process " ++
      ProcessId.text process
  | overlappingClasses id =>
    "process " ++ ProcessId.text id ++ " occurs in more than one collapse class"
  | malformed reason => "CBOR encoding failed: " ++ reason
  | searchExhausted => "search bound exhausted"

end ProcessCalculus
