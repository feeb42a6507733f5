import Mathlib.Data.List.Perm.Subperm
import ProcessCalculus.Proofs.Transition.Recorded
import ProcessCalculus.Proofs.Transition.Search

/-!
# Silent closures and saturated steps of known answers

What a table of answers says of silent steps: where any number of them leads, and which steps that are not silent can
be made with silent ones before and after. Once all processes that this depends on are answered, it does not change
when other answers become known.

* `KnownTransitions.IsClosure`: the processes in increasing order that silent steps reach.
* `KnownTransitions.IsSaturation`: the saturated steps of a process.
* `IsClosure.of_progress`, `IsSaturation.of_progress`: a search that ended has found these.
* `IsClosure.kept`, `IsSaturation.kept`: they stay right.
-/

namespace ProcessCalculus

open Relation

namespace KnownTransitions

/-- A step that is not silent, with any number of silent steps before and after it. -/
def Saturated (known : KnownTransitions) (x : ProcessId) (a : Action) (y : ProcessId) : Prop :=
  a ≠ .silent ∧ ∃ u v, known.Reaches x u ∧ known.Step u a v ∧ known.Reaches v y

/-- The process has to be looked at to find the saturated steps of another one. -/
def Visited (known : KnownTransitions) (x y : ProcessId) : Prop :=
  known.Reaches x y ∨ ∃ a, known.Saturated x a y

/-- Silent steps lead from the process to at most `limit` processes. -/
def ReachesAtMost (known : KnownTransitions) (limit : Nat) (x : ProcessId) : Prop :=
  ∃ l : List ProcessId, l.length ≤ limit ∧ ∀ y, known.Reaches x y → y ∈ l

/-- The processes that silent steps reach, all of them answered. -/
structure IsClosure (known : KnownTransitions) (id : ProcessId) (closure : List ProcessId) : Prop where
  sorted : closure.Pairwise (· < ·)
  mem_iff {x : ProcessId} : x ∈ closure ↔ known.Reaches id x
  exists_answer {x : ProcessId} : x ∈ closure → ∃ ts, known[x]? = some ts

/-- The saturated steps of a process, where all processes that have to be looked at are answered. -/
structure IsSaturation (known : KnownTransitions) (id : ProcessId) (ts : Transitions) : Prop where
  mem_iff {t : Transition} : t ∈ ts ↔ known.Saturated id t.action t.target
  exists_answer {x : ProcessId} : known.Visited id x → ∃ us, known[x]? = some us

/-- A transition and all silent steps after it are found. -/
def Covers (known : KnownTransitions) (found : Transitions) (t : Transition) : Prop :=
  ∃ closure, known.IsClosure t.target closure ∧ ∀ x ∈ closure, ⟨t.action, x⟩ ∈ found

/-- What a search for saturated steps has found in the processes that it has seen. -/
structure Found (known : KnownTransitions) (root : ProcessId) (found : Transitions) (seen : ProcessSet) : Prop where
  saturated {t : Transition} : t ∈ found → known.Saturated root t.action t.target
  covers {x : ProcessId} : x ∈ seen →
    ∃ ts, known[x]? = some ts ∧ ∀ t ∈ ts, t.action ≠ .silent → known.Covers found t

variable {known known' : KnownTransitions} {id x y root : ProcessId} {a : Action} {t : Transition}
  {ts found found' : Transitions} {seen : ProcessSet} {closure : List ProcessId} {limit : Nat}

namespace Saturated

theorem kept (h : known.Saturated x a y) (hk : known.Kept known') : known'.Saturated x a y := by
  obtain ⟨hvisible, u, v, hu, hv, hy⟩ := h
  exact ⟨hvisible, u, v, hu.kept hk, hv.kept hk, hy.kept hk⟩

/-- Silent steps may follow. -/
theorem trans (h : known.Saturated x a y) {z : ProcessId} (hz : known.Reaches y z) : known.Saturated x a z := by
  obtain ⟨hvisible, u, v, hu, hv, hy⟩ := h
  exact ⟨hvisible, u, v, hu, hv, hy.trans hz⟩

end Saturated

/-- Where everything that is reached is answered, further answers lead nowhere else. -/
theorem Reaches.of_kept (hk : known.Kept known') (hall : ∀ z, known.Reaches x z → ∃ ts, known[z]? = some ts)
    (h : known'.Reaches x y) : known.Reaches x y := by
  induction h with
  | refl => exact .refl
  | tail _ hstep ih => exact ih.tail (Step.of_kept hstep hk (hall _ ih))

namespace ReachesAtMost

theorem of_kept (h : known'.ReachesAtMost limit x) (hk : known.Kept known') : known.ReachesAtMost limit x := by
  obtain ⟨l, hlength, hl⟩ := h
  exact ⟨l, hlength, fun y hy => hl y (hy.kept hk)⟩

/-- Identifiers below the limit are not more than the limit. -/
theorem of_lt (h : ∀ y, known.Reaches x y → y < limit) : known.ReachesAtMost limit x :=
  ⟨List.range limit, by simp, fun y hy => List.mem_range.2 (h y hy)⟩

theorem not_exceedsFrom (h : known.ReachesAtMost limit x) : ¬ known.ExceedsFrom limit x := by
  obtain ⟨l, hlength, hl⟩ := h
  rintro ⟨l', hnodup, hlt, hl'⟩
  have hle := (hnodup.subperm fun y hy => hl y (hl' y hy)).length_le
  omega

end ReachesAtMost

namespace IsClosure

theorem kept (h : known.IsClosure id closure) (hk : known.Kept known') : known'.IsClosure id closure where
  sorted := h.sorted
  mem_iff {x} := by
    rw [h.mem_iff]
    exact ⟨fun hx => hx.kept hk, Reaches.of_kept hk fun _ hz => h.exists_answer (h.mem_iff.2 hz)⟩
  exists_answer hx := by
    obtain ⟨ts, hts⟩ := h.exists_answer hx
    exact ⟨ts, hk _ ts hts⟩

theorem of_progress (h : Search.Progress known root [] seen) : known.IsClosure root seen.toList where
  sorted := seen.sorted_toList.imp fun hlt => Nat.compare_eq_lt.1 hlt
  mem_iff {x} := by
    constructor
    · exact fun hx => h.reaches (.inl hx)
    · intro hx
      induction hx with
      | refl => exact h.root_mem.resolve_right List.not_mem_nil
      | tail _ hstep ih =>
        obtain ⟨ts, hts, ht⟩ := hstep
        exact h.mem_of_silent ih hts ht
  exists_answer hx := by
    obtain ⟨ts, hts, -⟩ := h.exists_answer hx
    exact ⟨ts, hts⟩

end IsClosure

namespace IsSaturation

theorem kept (h : known.IsSaturation id ts) (hk : known.Kept known') : known'.IsSaturation id ts := by
  have hsaturated {a : Action} {y : ProcessId} : known.Saturated id a y ↔ known'.Saturated id a y := by
    refine ⟨fun hy => hy.kept hk, ?_⟩
    rintro ⟨hvisible, u, v, hu, hv, hy⟩
    have hu := hu.of_kept hk fun z hz => h.exists_answer (.inl hz)
    have hv := hv.of_kept hk (h.exists_answer (.inl hu))
    refine ⟨hvisible, u, v, hu, hv, hy.of_kept hk fun z hz => h.exists_answer (.inr ?_)⟩
    exact ⟨a, hvisible, u, v, hu, hv, hz⟩
  constructor
  · intro t
    rw [h.mem_iff, hsaturated]
  · intro x hx
    have hx : known.Visited id x := by
      rcases hx with hx | ⟨a, hx⟩
      · exact .inl (hx.of_kept hk fun z hz => h.exists_answer (.inl hz))
      · exact .inr ⟨a, hsaturated.2 hx⟩
    obtain ⟨us, hus⟩ := h.exists_answer hx
    exact ⟨us, hk x us hus⟩

end IsSaturation

theorem Covers.kept (h : known.Covers found t) (hk : known.Kept known') (hsub : ∀ t ∈ found, t ∈ found') :
    known'.Covers found' t := by
  obtain ⟨closure, hc, hfound⟩ := h
  exact ⟨closure, hc.kept hk, fun x hx => hsub _ (hfound x hx)⟩

/-- What a search has found when it ends are the saturated steps of its root. -/
theorem IsSaturation.of_progress (h : Search.Progress known root [] seen) (hf : known.Found root found seen) :
    known.IsSaturation root found := by
  -- a step that is not silent starts at a process that the search has seen, with all that follows it
  have hcovers {a : Action} {y : ProcessId} (hy : known.Saturated root a y) :
      ∃ v closure, known.IsClosure v closure ∧ y ∈ closure ∧ ⟨a, y⟩ ∈ found := by
    obtain ⟨hvisible, u, v, hu, ⟨ts, hts, ht⟩, hy⟩ := hy
    obtain ⟨us, hus, hall⟩ := hf.covers ((IsClosure.of_progress h).mem_iff.2 hu)
    obtain rfl : us = ts := Option.some.inj (hus.symm.trans hts)
    obtain ⟨closure, hc, hfound⟩ := hall _ ht hvisible
    exact ⟨v, closure, hc, hc.mem_iff.2 hy, hfound y (hc.mem_iff.2 hy)⟩
  constructor
  · intro t
    constructor
    · exact hf.saturated
    · intro ht
      obtain ⟨-, -, -, -, hmem⟩ := hcovers ht
      exact hmem
  · rintro x (hx | ⟨a, hx⟩)
    · exact (IsClosure.of_progress h).exists_answer ((IsClosure.of_progress h).mem_iff.2 hx)
    · obtain ⟨_, closure, hc, hmem, -⟩ := hcovers hx
      exact hc.exists_answer hmem

end KnownTransitions

end ProcessCalculus
