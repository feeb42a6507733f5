import Mathlib.Data.Finset.Card
import Mathlib.Data.Finset.Range
import Mathlib.Logic.Relation
import Mathlib.Order.WellFounded

/-!
# Ranks in finite graphs

* `exists_rank`: a graph on the first `n` numbers without cycles has a rank that each edge lowers.
* `not_transGen_self_of_acc`: there is no cycle where no infinite path starts.
* `length_le_of_nodup`: different numbers below `n` are no more than `n`.
-/

namespace ProcessCalculus

open Relation

/-- The rank of a number is how many numbers it leads to. -/
theorem exists_rank {n : Nat} {E : Nat → Nat → Prop} (hlt : ∀ x y, x < n → E x y → y < n)
    (hE : ∀ x, x < n → ¬ TransGen E x x) : ∃ rank : Nat → Nat, ∀ x y, x < n → E x y → rank y < rank x := by
  classical
  refine ⟨fun x => ((Finset.range n).filter (TransGen E x)).card, fun x y hx hxy => ?_⟩
  have hy := hlt x y hx hxy
  refine Finset.card_lt_card (Finset.ssubset_iff_subset_ne.2 ⟨fun z hz => ?_, fun heq => ?_⟩)
  · rw [Finset.mem_filter] at hz ⊢
    exact ⟨hz.1, .head hxy hz.2⟩
  · have hmem : y ∈ (Finset.range n).filter (TransGen E x) :=
      Finset.mem_filter.2 ⟨Finset.mem_range.2 hy, .single hxy⟩
    rw [← heq, Finset.mem_filter] at hmem
    exact hE y hy hmem.2

/-- What is accessible against the edges is on no cycle. -/
theorem not_transGen_self_of_acc {α : Type} {E : α → α → Prop} {x : α} (h : Acc (fun y z => E z y) x) :
    ¬ TransGen E x x := by
  induction h with
  | intro x _ ih =>
    intro hx
    obtain ⟨y, hxy, hyx⟩ := TransGen.head'_iff.1 hx
    exact ih y hxy (.tail' hyx hxy)

theorem length_le_of_nodup {n : Nat} {l : List Nat} (h : l.Nodup) (hlt : ∀ x ∈ l, x < n) : l.length ≤ n := by
  have hsub : l ⊆ List.range n := fun x hx => List.mem_range.2 (hlt x hx)
  have hle := (List.subperm_of_subset h hsub).length_le
  rwa [List.length_range] at hle

end ProcessCalculus
