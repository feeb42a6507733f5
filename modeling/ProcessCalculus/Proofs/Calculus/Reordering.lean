import ProcessCalculus.Proofs.Calculus.Bisimulation
import ProcessCalculus.Proofs.Calculus.Steps

/-!
# Terms up to the order of operands

Two terms are the same up to the order of operands if one becomes the other by swapping the operands of sums
and of parallel compositions, at any depth.

* `Reordered.refl`, `Reordered.symm`, `Reordered.trans`: this is an equivalence.
* `Reordered.height_eq`, `Reordered.unfolding_eq`: it keeps the depth of a term.
* `Reordered.isBisimulation`: it is a strong bisimulation.
-/

namespace ProcessCalculus

namespace Term

/-- One term is the other with the operands of some sums and parallel compositions swapped. -/
inductive Reordered : Term → Term → Prop
  | null : Reordered null null
  | name (n : String) : Reordered (name n) (name n)
  | sum {l l' r r'} (hl : Reordered l l') (hr : Reordered r r') : Reordered (sum l r) (sum l' r')
  | sumSwap {l l' r r'} (hl : Reordered l r') (hr : Reordered r l') :
      Reordered (sum l r) (sum l' r')
  | parallel {l l' r r'} (hl : Reordered l l') (hr : Reordered r r') :
      Reordered (parallel l r) (parallel l' r')
  | parallelSwap {l l' r r'} (hl : Reordered l r') (hr : Reordered r l') :
      Reordered (parallel l r) (parallel l' r')
  | act {t t'} (a : Action) (h : Reordered t t') : Reordered (act a t) (act a t')
  | restrict {t t'} (h : Reordered t t') (labels : LabelSet) :
      Reordered (restrict t labels) (restrict t' labels)
  | rename {t t'} (h : Reordered t t') (renames : Renaming) :
      Reordered (rename t renames) (rename t' renames)
  | delay {t t'} (d : UInt32) (h : Reordered t t') : Reordered (delay d t) (delay d t')

namespace Reordered

variable {s t u : Term}

theorem refl (t : Term) : Reordered t t := by
  induction t with
  | null => exact .null
  | name n => exact .name n
  | sum _ _ ihl ihr => exact .sum ihl ihr
  | parallel _ _ ihl ihr => exact .parallel ihl ihr
  | act a _ ih => exact .act a ih
  | restrict _ labels ih => exact .restrict ih labels
  | rename _ renames ih => exact .rename ih renames
  | delay d _ ih => exact .delay d ih

theorem symm (h : Reordered s t) : Reordered t s := by
  induction h with
  | null => exact .null
  | name n => exact .name n
  | sum _ _ ihl ihr => exact .sum ihl ihr
  | sumSwap _ _ ihl ihr => exact .sumSwap ihr ihl
  | parallel _ _ ihl ihr => exact .parallel ihl ihr
  | parallelSwap _ _ ihl ihr => exact .parallelSwap ihr ihl
  | act a _ ih => exact .act a ih
  | restrict _ labels ih => exact .restrict ih labels
  | rename _ renames ih => exact .rename ih renames
  | delay d _ ih => exact .delay d ih

theorem trans (h : Reordered s t) (h' : Reordered t u) : Reordered s u := by
  induction h generalizing u with
  | null => exact h'
  | name n => exact h'
  | sum _ _ ihl ihr =>
    cases h' with
    | sum hl hr => exact .sum (ihl hl) (ihr hr)
    | sumSwap hl hr => exact .sumSwap (ihl hl) (ihr hr)
  | sumSwap _ _ ihl ihr =>
    cases h' with
    | sum hl hr => exact .sumSwap (ihl hr) (ihr hl)
    | sumSwap hl hr => exact .sum (ihl hr) (ihr hl)
  | parallel _ _ ihl ihr =>
    cases h' with
    | parallel hl hr => exact .parallel (ihl hl) (ihr hr)
    | parallelSwap hl hr => exact .parallelSwap (ihl hl) (ihr hr)
  | parallelSwap _ _ ihl ihr =>
    cases h' with
    | parallel hl hr => exact .parallelSwap (ihl hr) (ihr hl)
    | parallelSwap hl hr => exact .parallel (ihl hr) (ihr hl)
  | act a _ ih =>
    cases h' with
    | act _ h => exact .act a (ih h)
  | restrict _ labels ih =>
    cases h' with
    | restrict h => exact .restrict (ih h) labels
  | rename _ renames ih =>
    cases h' with
    | rename h => exact .rename (ih h) renames
  | delay d _ ih =>
    cases h' with
    | delay _ h => exact .delay d (ih h)

theorem height_eq (h : Reordered s t) : s.height = t.height := by
  induction h <;> simp only [height] <;> omega

theorem unfolding_eq (h : Reordered s t) (names : String → Nat) :
    s.unfolding names = t.unfolding names := by
  induction h <;> simp only [unfolding] <;> omega

theorem operatorFree (h : Reordered s t) (hs : s.OperatorFree) : t.OperatorFree := by
  induction h with
  | null | name => trivial
  | sum _ _ ihl ihr | parallel _ _ ihl ihr => exact ⟨ihl hs.1, ihr hs.2⟩
  | sumSwap _ _ ihl ihr | parallelSwap _ _ ihl ihr => exact ⟨ihr hs.2, ihl hs.1⟩
  | act _ _ ih | delay _ _ ih => exact ih hs
  | restrict | rename => exact hs

variable {defs defs' : String → Term → Prop}

private theorem forth (hd : ∀ n t, defs n t → ∃ t', defs' n t' ∧ Reordered t t') {a : Action} {s' : Term}
    (h : Reordered s t) (hs : Step defs s a s') : ∃ t', Step defs' t a t' ∧ Reordered s' t' := by
  induction hs generalizing t with
  | act a s =>
    cases h with
    | act _ h => exact ⟨_, .act a _, h⟩
  | delay d s =>
    cases h with
    | delay _ h => exact ⟨_, .delay d _, h⟩
  | sumLeft r _ ih =>
    cases h with
    | sum hl hr =>
      obtain ⟨t', ht, h'⟩ := ih hl
      exact ⟨t', .sumLeft _ ht, h'⟩
    | sumSwap hl hr =>
      obtain ⟨t', ht, h'⟩ := ih hl
      exact ⟨t', .sumRight _ ht, h'⟩
  | sumRight l _ ih =>
    cases h with
    | sum hl hr =>
      obtain ⟨t', ht, h'⟩ := ih hr
      exact ⟨t', .sumRight _ ht, h'⟩
    | sumSwap hl hr =>
      obtain ⟨t', ht, h'⟩ := ih hr
      exact ⟨t', .sumLeft _ ht, h'⟩
  | left r _ ih =>
    cases h with
    | parallel hl hr =>
      obtain ⟨t', ht, h'⟩ := ih hl
      exact ⟨_, .left _ ht, .parallel h' hr⟩
    | parallelSwap hl hr =>
      obtain ⟨t', ht, h'⟩ := ih hl
      exact ⟨_, .right _ ht, .parallelSwap h' hr⟩
  | right l _ ih =>
    cases h with
    | parallel hl hr =>
      obtain ⟨t', ht, h'⟩ := ih hr
      exact ⟨_, .right _ ht, .parallel hl h'⟩
    | parallelSwap hl hr =>
      obtain ⟨t', ht, h'⟩ := ih hr
      exact ⟨_, .left _ ht, .parallelSwap hl h'⟩
  | @handshake _ _ _ _ _ p _ _ ihl ihr =>
    cases h with
    | parallel hl hr =>
      obtain ⟨l', hl', h₁⟩ := ihl hl
      obtain ⟨r', hr', h₂⟩ := ihr hr
      exact ⟨_, .handshake hl' hr', .parallel h₁ h₂⟩
    | parallelSwap hl hr =>
      obtain ⟨r', hr', h₁⟩ := ihl hl
      obtain ⟨l', hl', h₂⟩ := ihr hr
      -- the two sides change places, and so do the polarities
      rw [← p.opposite_opposite] at hr'
      exact ⟨_, .handshake hl' hr', .parallelSwap h₁ h₂⟩
  | restrict _ hidden ih =>
    cases h with
    | restrict h _ =>
      obtain ⟨t', ht, h'⟩ := ih h
      exact ⟨_, .restrict ht hidden, .restrict h' _⟩
  | rename _ takes ih =>
    cases h with
    | rename h _ =>
      obtain ⟨t', ht, h'⟩ := ih h
      exact ⟨_, .rename ht takes, .rename h' _⟩
  | unfold definition _ ih =>
    cases h with
    | name n =>
      obtain ⟨t₀, hd₀, h₀⟩ := hd _ _ definition
      obtain ⟨t', ht, h'⟩ := ih h₀
      exact ⟨t', .unfold hd₀ ht, h'⟩

/-- Reordered terms make the same steps, if the definitions on the two sides are reordered as well. -/
theorem isBisimulation (hd : ∀ n t, defs n t → ∃ t', defs' n t' ∧ Reordered t t')
    (hd' : ∀ n t', defs' n t' → ∃ t, defs n t ∧ Reordered t t') :
    IsBisimulation (Step defs) (Step defs') Reordered where
  forth h hs := forth hd h hs
  back h hs := by
    have hd'' (n : String) (t' : Term) (ht : defs' n t') : ∃ t, defs n t ∧ Reordered t' t :=
      (hd' n t' ht).imp fun _ h => ⟨h.1, h.2.symm⟩
    exact (forth hd'' h.symm hs).imp fun _ h => ⟨h.1, h.2.symm⟩

end Reordered

end Term

end ProcessCalculus
