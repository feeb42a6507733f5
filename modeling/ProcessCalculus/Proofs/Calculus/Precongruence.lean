import ProcessCalculus.Proofs.Calculus.Simplifying

/-!
# Precongruences

A precongruence is a preorder on terms that all term formers keep and that is a strong bisimulation. What a pass
does to a program is described up to one: sharing up to the order of operands, simplification up to the laws.

* `Precongruence.node`: a node over related terms says a related term.
* `Reordered.precongruence`, `Simplifies.precongruence`: the two that are used.
-/

namespace ProcessCalculus

open Term

/-- A preorder on terms, coarser than the order of operands, that the term formers keep. Smaller terms are no deeper
than larger ones, and make the same steps. `le s t` is read as "`t` may stand for `s`". -/
structure Precongruence (le : Term → Term → Prop) : Prop where
  of_reordered {s t : Term} : Reordered s t → le s t
  trans {s t u : Term} : le s t → le t u → le s u
  sum {l l' r r' : Term} : le l l' → le r r' → le (.sum l r) (.sum l' r')
  parallel {l l' r r' : Term} : le l l' → le r r' → le (.parallel l r) (.parallel l' r')
  act (a : Action) {t t' : Term} : le t t' → le (.act a t) (.act a t')
  restrict {t t' : Term} (labels : LabelSet) : le t t' → le (.restrict t labels) (.restrict t' labels)
  rename {t t' : Term} (renames : Renaming) : le t t' → le (.rename t renames) (.rename t' renames)
  delay (d : UInt32) {t t' : Term} : le t t' → le (.delay d t) (.delay d t')
  height_le {s t : Term} : le s t → t.height ≤ s.height
  unfolding_le {s t : Term} : le s t → ∀ names, t.unfolding names ≤ s.unfolding names
  isBisimulation {defs defs' : String → Term → Prop} :
    (∀ n t, defs n t → ∃ t', defs' n t' ∧ le t t') → (∀ n t', defs' n t' → ∃ t, defs n t ∧ le t t') →
      IsBisimulation (Step defs) (Step defs') le

namespace Precongruence

variable {le : Term → Term → Prop} (hle : Precongruence le)

include hle

theorem refl (t : Term) : le t t :=
  hle.of_reordered (.refl t)

theorem isBisimulation_self (defs : String → Term → Prop) : IsBisimulation (Step defs) (Step defs) le :=
  hle.isBisimulation (fun _ t h => ⟨t, h, hle.refl t⟩) fun _ t h => ⟨t, h, hle.refl t⟩

theorem node {α β : Type} {m : α → Term} {m' : β → Term} {n : Node α} {n' : Node β}
    (h : n.Related (fun c d => le (m c) (m' d)) n') : le (n.term m) (n'.term m') := by
  cases h with
  | null => exact hle.refl _
  | named name body => exact hle.refl _
  | sum hl hr => exact hle.sum hl hr
  | parallel hl hr => exact hle.parallel hl hr
  | act a h => exact hle.act a h
  | restrict h labels => exact hle.restrict labels h
  | rename h renames => exact hle.rename renames h
  | delay d h => exact hle.delay d h

end Precongruence

theorem Term.Reordered.precongruence : Precongruence Reordered where
  of_reordered h := h
  trans h h' := h.trans h'
  sum hl hr := .sum hl hr
  parallel hl hr := .parallel hl hr
  act a _ _ h := .act a h
  restrict labels h := .restrict h labels
  rename renames h := .rename h renames
  delay d _ _ h := .delay d h
  height_le h := Nat.le_of_eq h.height_eq.symm
  unfolding_le h names := Nat.le_of_eq (h.unfolding_eq names).symm
  isBisimulation hd hd' := Reordered.isBisimulation hd hd'

theorem Term.Simplifies.precongruence : Precongruence Simplifies where
  of_reordered h := h.simplifies
  trans h h' := h.trans h'
  sum hl hr := .sum hl hr
  parallel hl hr := .parallel hl hr
  act a _ _ h := .act a h
  restrict labels h := .restrict h labels
  rename renames h := .rename h renames
  delay d _ _ h := .delay d h
  height_le h := h.height_le
  unfolding_le h names := h.unfolding_le names
  isBisimulation hd hd' := Simplifies.isBisimulation hd hd'

end ProcessCalculus
