import Mathlib.Logic.Relation
import ProcessCalculus.Term.Action

/-!
# Strong bisimulation

Two states of transition systems are strongly bisimilar if some relation between the systems holds of them in
which every step of one side is matched by a step of the other side with the same action.

* `IsBisimulation.swap`, `IsBisimulation.comp`: bisimulations read the other way, and one after the other.
* `IsBisimulation.saturated`: a bisimulation matches saturated steps as well, those that hide the silent
  steps around a step that is not silent.
-/

namespace ProcessCalculus

open Relation

variable {α β γ : Type}

/-- Each step of related states is matched on the other side, and leads to related states again. -/
structure IsBisimulation (stepA : α → Action → α → Prop) (stepB : β → Action → β → Prop)
    (R : α → β → Prop) : Prop where
  forth {s : α} {t : β} {a : Action} {s' : α} :
    R s t → stepA s a s' → ∃ t', stepB t a t' ∧ R s' t'
  back {s : α} {t : β} {a : Action} {t' : β} :
    R s t → stepB t a t' → ∃ s', stepA s a s' ∧ R s' t'

/-- Some bisimulation relates the two states. -/
def Bisimilar (stepA : α → Action → α → Prop) (stepB : β → Action → β → Prop) (s : α) (t : β) : Prop :=
  ∃ R, IsBisimulation stepA stepB R ∧ R s t

/-- Any number of silent steps. -/
def SilentPath (step : α → Action → α → Prop) : α → α → Prop :=
  ReflTransGen fun s t => step s .silent t

/-- A step that is not silent, with any number of silent steps before and after it. -/
def Saturated (step : α → Action → α → Prop) (s : α) (a : Action) (t : α) : Prop :=
  a ≠ .silent ∧ ∃ s' t', SilentPath step s s' ∧ step s' a t' ∧ SilentPath step t' t

namespace IsBisimulation

variable {stepA : α → Action → α → Prop} {stepB : β → Action → β → Prop} {R : α → β → Prop}

theorem swap (h : IsBisimulation stepA stepB R) : IsBisimulation stepB stepA (flip R) where
  forth hR hs := h.back hR hs
  back hR hs := h.forth hR hs

theorem comp {stepC : γ → Action → γ → Prop} {S : β → γ → Prop} (h : IsBisimulation stepA stepB R)
    (h' : IsBisimulation stepB stepC S) : IsBisimulation stepA stepC (Comp R S) where
  forth := by
    rintro s u a s' ⟨t, hst, htu⟩ hs
    obtain ⟨t', ht, hst'⟩ := h.forth hst hs
    obtain ⟨u', hu, htu'⟩ := h'.forth htu ht
    exact ⟨u', hu, t', hst', htu'⟩
  back := by
    rintro s u a u' ⟨t, hst, htu⟩ hu
    obtain ⟨t', ht, htu'⟩ := h'.back htu hu
    obtain ⟨s', hs, hst'⟩ := h.back hst ht
    exact ⟨s', hs, t', hst', htu'⟩

theorem silentPath (h : IsBisimulation stepA stepB R) {s s' : α} {t : β} (hR : R s t)
    (hs : SilentPath stepA s s') : ∃ t', SilentPath stepB t t' ∧ R s' t' := by
  induction hs with
  | refl => exact ⟨t, .refl, hR⟩
  | tail _ hstep ih =>
    obtain ⟨u, hu, hRu⟩ := ih
    obtain ⟨t', ht', hR'⟩ := h.forth hRu hstep
    exact ⟨t', hu.tail ht', hR'⟩

private theorem saturated_forth (h : IsBisimulation stepA stepB R) {s s' : α} {t : β} {a : Action}
    (hR : R s t) (hs : Saturated stepA s a s') : ∃ t', Saturated stepB t a t' ∧ R s' t' := by
  obtain ⟨ha, s₁, s₂, h₁, h₂, h₃⟩ := hs
  obtain ⟨t₁, ht₁, hR₁⟩ := h.silentPath hR h₁
  obtain ⟨t₂, ht₂, hR₂⟩ := h.forth hR₁ h₂
  obtain ⟨t₃, ht₃, hR₃⟩ := h.silentPath hR₂ h₃
  exact ⟨t₃, ⟨ha, t₁, t₂, ht₁, ht₂, ht₃⟩, hR₃⟩

theorem saturated (h : IsBisimulation stepA stepB R) :
    IsBisimulation (Saturated stepA) (Saturated stepB) R where
  forth hR hs := h.saturated_forth hR hs
  back hR hs := h.swap.saturated_forth hR hs

end IsBisimulation

end ProcessCalculus
