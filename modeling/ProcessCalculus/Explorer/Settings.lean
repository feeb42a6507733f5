import ProcessCalculus.Text.Layout

/-!
# Settings

How a program is prepared for questions about it.
-/

namespace ProcessCalculus

/-- Whether to simplify terms, whether to hide silent steps, and whether to refuse programs with
unguarded definitions. -/
structure Settings where
  simplify : Bool := true
  saturate : Bool := false
  refuseUnguarded : Bool := true
deriving DecidableEq

namespace Settings

/-- The transitions as the rules give them, for all programs. -/
def plain : Settings :=
  ⟨false, false, false⟩

/-- The usual settings, with silent steps hidden. -/
def observable : Settings :=
  { saturate := true }

/-- The written form as a record. -/
def recordText (s : Settings) : String :=
  Text.record "EngineConfig"
    [("reduce", toString s.simplify), ("weak", toString s.saturate),
      ("reject_unguarded", toString s.refuseUnguarded)]

end Settings

end ProcessCalculus
