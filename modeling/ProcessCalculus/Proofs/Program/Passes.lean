import ProcessCalculus.Proofs.Sharing.Moves
import ProcessCalculus.Proofs.Simplification.Forms

/-!
# Passes over all definitions

A pass that starts without notes reads the program as what it denotes then, whatever was done to it before.

* `PassStep`: the passes over all definitions.
* `PassStep.exists_reading`, `PassStep.exists_reading_of_valid`: programs are read again after a pass.
-/

namespace ProcessCalculus

open Term

/-- All definitions are shared, or all are simplified, with empty notes. -/
inductive PassStep : Program → Program → Prop
  | share (p : Program) : PassStep p (after Sharing.shareProgram (p, ∅)).1
  | simplify (p : Program) : PassStep p (after Simplification.simplifyProgram (p, ∅)).1

namespace PassStep

variable {p q : Program} {m : ProcessId → Term}

/-- A program can be read again after a pass, with the definitions that it had before. -/
theorem exists_reading {defs : String → Term → Prop} (h : PassStep p q)
    (hm : Reading.Models Reordered defs ⟨p, m⟩) :
    ∃ r, r.program = q ∧ r.Models Simplifies defs ∧ Reading.Preserves ⟨p, m⟩ r := by
  have hmodels : Reading.Models Simplifies defs ⟨p, m⟩ := hm.mono Reordered.simplifies
  cases h with
  | share =>
    have hk : Sharing.Shared m defs (p, ∅) := ⟨hm, .empty _, .empty _⟩
    refine Ends.after (P := fun k : Program × Sharing => ∃ r : Reading, r.program = k.1 ∧ r.Models Simplifies defs ∧
      Reading.Preserves ⟨p, m⟩ r) ?_
    refine (Sharing.ends_shareProgram hk).mono ?_ fun _ _ h => h.elim
    rintro - ⟨q, s⟩ ⟨hs, hp, -⟩
    exact ⟨⟨q, m⟩, rfl, hs.models.mono Reordered.simplifies, hp⟩
  | simplify =>
    refine Ends.after (P := fun k : Program × Simplification => ∃ r : Reading, r.program = k.1 ∧
      r.Models Simplifies defs ∧ Reading.Preserves ⟨p, m⟩ r) ?_
    refine (Simplification.ends_simplifyProgram (.of_models hmodels)).mono ?_ fun _ _ h => h.elim
    rintro - _ ⟨r, s, rfl, hs, hp⟩
    exact ⟨r, rfl, hs.models, hp⟩

/-- Each pass starts from a reading of its own: what its program denotes, which need not be what was denoted before
earlier passes. -/
theorem exists_reading_of_valid {r : Reading} (hv : r.Valid Simplifies) (h : PassStep r.program q) :
    ∃ m, Reading.Models Reordered r.program.Defines ⟨r.program, m⟩ ∧
      ∃ r' : Reading, r'.program = q ∧ r'.Models Simplifies r.program.Defines ∧
        Reading.Preserves ⟨r.program, m⟩ r' := by
  obtain ⟨m, hm, hexact⟩ := hv.exists_exact_of_le Simplifies.precongruence
  have hmodels : Reading.Models Reordered r.program.Defines ⟨r.program, m⟩ :=
    .of_denotes (hexact Reordered Reordered.refl) fun id hid => ⟨m id, hm id hid, .refl _⟩
  exact ⟨m, hmodels, h.exists_reading hmodels⟩

end PassStep

end ProcessCalculus
