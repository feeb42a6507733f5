import Mathlib.Logic.Relation
import Mathlib.Tactic.Choose
import ProcessCalculus.Proofs.Calculus.Precongruence

/-!
# Finitely many steps

If definitions are guarded, a term makes only finitely many steps, up to the order of operands. So do all the terms
together from which it takes its steps.

* `FinitelyMany`: finitely many terms, up to the order of operands.
* `Reaches`: any number of steps.
* `Opens`: the terms from which a term takes its steps.
* `Derived`: what is left by the steps of a term and of all terms that it opens.
* `finitelyMany_derived`: these are finitely many.
-/

namespace ProcessCalculus

open Relation

namespace Term

/-- Up to the order of operands, only finitely many terms have the property. -/
def FinitelyMany (P : Term → Prop) : Prop :=
  ∃ l : List Term, ∀ t, P t → ∃ u ∈ l, Reordered t u

namespace FinitelyMany

variable {P Q : Term → Prop} {R : Term → Term → Prop}

theorem mono (h : FinitelyMany Q) (hPQ : ∀ t, P t → ∃ u, Q u ∧ Reordered t u) : FinitelyMany P := by
  obtain ⟨l, hl⟩ := h
  refine ⟨l, fun t ht => ?_⟩
  obtain ⟨u, hu, htu⟩ := hPQ t ht
  obtain ⟨v, hv, huv⟩ := hl u hu
  exact ⟨v, hv, htu.trans huv⟩

theorem of_imp (h : FinitelyMany Q) (hPQ : ∀ t, P t → Q t) : FinitelyMany P :=
  h.mono fun t ht => ⟨t, hPQ t ht, .refl t⟩

theorem of_not (h : ∀ t, ¬ P t) : FinitelyMany P :=
  ⟨[], fun t ht => absurd ht (h t)⟩

theorem singleton (t : Term) : FinitelyMany (· = t) :=
  ⟨[t], fun u hu => ⟨t, List.mem_singleton_self t, hu ▸ .refl u⟩⟩

theorem or (h : FinitelyMany P) (h' : FinitelyMany Q) : FinitelyMany fun t => P t ∨ Q t := by
  obtain ⟨l, hl⟩ := h
  obtain ⟨l', hl'⟩ := h'
  refine ⟨l ++ l', fun t ht => ?_⟩
  rcases ht with ht | ht
  · obtain ⟨u, hu, htu⟩ := hl t ht
    exact ⟨u, List.mem_append_left _ hu, htu⟩
  · obtain ⟨u, hu, htu⟩ := hl' t ht
    exact ⟨u, List.mem_append_right _ hu, htu⟩

/-- Finitely many terms for each of finitely many terms, if equal ones have equal ones. -/
theorem bind (h : FinitelyMany P) (hR : ∀ t, FinitelyMany (R t))
    (hresp : ∀ {t t' u}, Reordered t t' → R t u → ∃ u', R t' u' ∧ Reordered u u') :
    FinitelyMany fun u => ∃ t, P t ∧ R t u := by
  obtain ⟨l, hl⟩ := h
  choose terms hterms using hR
  refine ⟨l.flatMap terms, ?_⟩
  rintro u ⟨t, ht, hu⟩
  obtain ⟨t', ht', htt⟩ := hl t ht
  obtain ⟨u', hu', huu⟩ := hresp htt hu
  obtain ⟨v, hv, huv⟩ := hterms t' u' hu'
  exact ⟨v, List.mem_flatMap.2 ⟨t', ht', hv⟩, huu.trans huv⟩

theorem map {f : Term → Term} (h : FinitelyMany P) (hf : ∀ {t t'}, Reordered t t' → Reordered (f t) (f t')) :
    FinitelyMany fun u => ∃ t, P t ∧ u = f t := by
  obtain ⟨l, hl⟩ := h
  refine ⟨l.map f, ?_⟩
  rintro _ ⟨t, ht, rfl⟩
  obtain ⟨u, hu, htu⟩ := hl t ht
  exact ⟨f u, List.mem_map_of_mem hu, hf htu⟩

theorem map₂ {f : Term → Term → Term} (h : FinitelyMany P) (h' : FinitelyMany Q)
    (hf : ∀ {s s' t t'}, Reordered s s' → Reordered t t' → Reordered (f s t) (f s' t')) :
    FinitelyMany fun u => ∃ s, P s ∧ ∃ t, Q t ∧ u = f s t := by
  refine h.bind (fun s => h'.map fun ht => hf (.refl s) ht) ?_
  rintro s s' _ hs ⟨t, ht, rfl⟩
  exact ⟨f s' t, ⟨t, ht, rfl⟩, hf hs (.refl t)⟩

end FinitelyMany

/-- A term opens the terms from which it takes its steps: the operands of its outermost term former, unless that is a
prefix, and the definitions of a name. -/
inductive Opens (defs : String → Term → Prop) : Term → Term → Prop
  | sumLeft (l r : Term) : Opens defs (sum l r) l
  | sumRight (l r : Term) : Opens defs (sum l r) r
  | parallelLeft (l r : Term) : Opens defs (parallel l r) l
  | parallelRight (l r : Term) : Opens defs (parallel l r) r
  | restrict (t : Term) (labels : LabelSet) : Opens defs (restrict t labels) t
  | rename (t : Term) (renames : Renaming) : Opens defs (rename t renames) t
  | unfold {n : String} {t : Term} (definition : defs n t) : Opens defs (name n) t

/-- A step of the first term, or of one that it opens directly or not, leaves the second one. -/
def Derived (defs : String → Term → Prop) (t u : Term) : Prop :=
  ∃ v a, ReflTransGen (Opens defs) t v ∧ Step defs v a u

/-- Any number of steps leads from the first term to the second one. -/
def Reaches (defs : String → Term → Prop) : Term → Term → Prop :=
  ReflTransGen fun t u => ∃ a, Step defs t a u

variable {defs : String → Term → Prop} {s t u v : Term}

namespace Reaches

/-- Steps lead to a term of a list if the steps of each term in the list do. -/
theorem mem_of_closed {l : List Term} (hl : ∀ t ∈ l, ∀ a u, Step defs t a u → u ∈ l) (ht : t ∈ l)
    (h : Reaches defs t u) : u ∈ l := by
  induction h with
  | refl => exact ht
  | tail _ hs ih =>
    obtain ⟨a, hs⟩ := hs
    exact hl _ ih a _ hs

/-- What bisimilar terms reach is bisimilar. -/
theorem forth {defs' : String → Term → Prop} {R : Term → Term → Prop}
    (hb : IsBisimulation (Step defs) (Step defs') R) (hR : R t s) (h : Reaches defs t u) :
    ∃ v, Reaches defs' s v ∧ R u v := by
  induction h with
  | refl => exact ⟨s, .refl, hR⟩
  | tail _ hs ih =>
    obtain ⟨a, hs⟩ := hs
    obtain ⟨v, hv, hR'⟩ := ih
    obtain ⟨w, hw, hR''⟩ := hb.forth hR' hs
    exact ⟨w, hv.tail ⟨a, hw⟩, hR''⟩

end Reaches

/-- Equal terms open equal terms. -/
theorem Opens.of_reordered (h : Reordered t u) (ho : Opens defs t v) : ∃ w, Opens defs u w ∧ Reordered v w := by
  cases ho with
  | sumLeft =>
    cases h with
    | sum hl hr => exact ⟨_, .sumLeft _ _, hl⟩
    | sumSwap hl hr => exact ⟨_, .sumRight _ _, hl⟩
  | sumRight =>
    cases h with
    | sum hl hr => exact ⟨_, .sumRight _ _, hr⟩
    | sumSwap hl hr => exact ⟨_, .sumLeft _ _, hr⟩
  | parallelLeft =>
    cases h with
    | parallel hl hr => exact ⟨_, .parallelLeft _ _, hl⟩
    | parallelSwap hl hr => exact ⟨_, .parallelRight _ _, hl⟩
  | parallelRight =>
    cases h with
    | parallel hl hr => exact ⟨_, .parallelRight _ _, hr⟩
    | parallelSwap hl hr => exact ⟨_, .parallelLeft _ _, hr⟩
  | restrict =>
    cases h with
    | restrict h => exact ⟨_, .restrict _ _, h⟩
  | rename =>
    cases h with
    | rename h => exact ⟨_, .rename _ _, h⟩
  | unfold definition =>
    cases h with
    | name => exact ⟨_, .unfold definition, .refl _⟩

theorem Opens.reaches_of_reordered (h : Reordered t u) (hreach : ReflTransGen (Opens defs) t v) :
    ∃ w, ReflTransGen (Opens defs) u w ∧ Reordered v w := by
  induction hreach with
  | refl => exact ⟨u, .refl, h⟩
  | tail _ ho ih =>
    obtain ⟨w, hw, hle⟩ := ih
    obtain ⟨w', hw', hle'⟩ := ho.of_reordered hle
    exact ⟨w', hw.tail hw', hle'⟩

namespace Derived

theorem step {a : Action} (h : Step defs t a u) : Derived defs t u :=
  ⟨t, a, .refl, h⟩

/-- What is derived is left by a step of the term itself, or derived from a term that it opens. -/
theorem cases (h : Derived defs t u) : (∃ a, Step defs t a u) ∨ ∃ s, Opens defs t s ∧ Derived defs s u := by
  obtain ⟨v, a, hreach, hs⟩ := h
  rcases hreach.cases_head with rfl | ⟨s, ho, hreach⟩
  · exact .inl ⟨a, hs⟩
  · exact .inr ⟨s, ho, v, a, hreach, hs⟩

/-- From equal terms, equal ones are derived. -/
theorem of_reordered (h : Reordered t s) (hd : Derived defs t u) : ∃ w, Derived defs s w ∧ Reordered u w := by
  obtain ⟨v, a, hreach, hs⟩ := hd
  obtain ⟨w, hw, hle⟩ := Opens.reaches_of_reordered h hreach
  obtain ⟨u', hu', hle'⟩ := (Reordered.precongruence.isBisimulation_self defs).forth hle hs
  exact ⟨u', ⟨w, a, hw, hu'⟩, hle'⟩

end Derived

/-- Where definitions are guarded, a term that is opened is unfolded less deep. -/
theorem Opens.unfolding_lt {names : String → Nat} (hnames : ∀ n t, defs n t → t.unfolding names < names n)
    (h : Opens defs t u) : u.unfolding names < t.unfolding names := by
  cases h with
  | sumLeft | parallelLeft | sumRight | parallelRight => simp only [unfolding]; omega
  | restrict | rename => exact Nat.lt_succ_self _
  | unfold definition => exact hnames _ _ definition

/-- If definitions are guarded and names have one definition, only finitely many terms are derived from each. By
induction on how deep the term is unfolded: its steps are made of those of the terms that it opens. -/
theorem finitelyMany_derived {names : String → Nat} (hnames : ∀ n t, defs n t → t.unfolding names < names n)
    (hone : ∀ n t t', defs n t → defs n t' → Reordered t t') (t : Term) : FinitelyMany (Derived defs t) := by
  induction hk : t.unfolding names using Nat.strongRecOn generalizing t with
  | ind k ih =>
    have hopens {s : Term} (ho : Opens defs t s) : FinitelyMany (Derived defs s) :=
      ih _ (hk ▸ ho.unfolding_lt hnames) s rfl
    cases t with
    | null =>
      refine .of_not fun u h => ?_
      rcases h.cases with ⟨a, hs⟩ | ⟨s, ho, -⟩
      · cases hs
      · cases ho
    | act a p =>
      refine (FinitelyMany.singleton p).of_imp fun u h => ?_
      rcases h.cases with ⟨b, hs⟩ | ⟨s, ho, -⟩
      · cases hs
        rfl
      · cases ho
    | delay d p =>
      refine (FinitelyMany.singleton p).of_imp fun u h => ?_
      rcases h.cases with ⟨b, hs⟩ | ⟨s, ho, -⟩
      · cases hs
        rfl
      · cases ho
    | name n =>
      by_cases hdef : ∃ t, defs n t
      · obtain ⟨t, definition⟩ := hdef
        refine (hopens (.unfold definition)).mono fun u h => ?_
        have hbody : ∃ t', defs n t' ∧ Derived defs t' u := by
          rcases h.cases with ⟨a, hs⟩ | ⟨s, ho, hd⟩
          · cases hs with
            | unfold definition' hs => exact ⟨_, definition', .step hs⟩
          · cases ho with
            | unfold definition' => exact ⟨_, definition', hd⟩
        obtain ⟨t', definition', hd⟩ := hbody
        exact hd.of_reordered (hone n t' t definition' definition)
      · refine .of_not fun u h => hdef ?_
        rcases h.cases with ⟨a, hs⟩ | ⟨s, ho, -⟩
        · cases hs with
          | unfold definition _ => exact ⟨_, definition⟩
        · cases ho with
          | unfold definition => exact ⟨_, definition⟩
    | sum l r =>
      refine ((hopens (.sumLeft l r)).or (hopens (.sumRight l r))).of_imp fun u h => ?_
      rcases h.cases with ⟨a, hs⟩ | ⟨s, ho, hd⟩
      · cases hs with
        | sumLeft _ hs => exact .inl (.step hs)
        | sumRight _ hs => exact .inr (.step hs)
      · cases ho with
        | sumLeft => exact .inl hd
        | sumRight => exact .inr hd
    | parallel l r =>
      have hl := hopens (.parallelLeft l r)
      have hr := hopens (.parallelRight l r)
      have hsteps := ((hl.or (.singleton l)).map₂ (hr.or (.singleton r)) fun hl hr => .parallel hl hr)
      refine (hsteps.or (hl.or hr)).of_imp fun u h => ?_
      rcases h.cases with ⟨a, hs⟩ | ⟨s, ho, hd⟩
      · left
        cases hs with
        | left _ hs => exact ⟨_, .inl (.step hs), _, .inr rfl, rfl⟩
        | right _ hs => exact ⟨_, .inr rfl, _, .inl (.step hs), rfl⟩
        | handshake hl hr => exact ⟨_, .inl (.step hl), _, .inl (.step hr), rfl⟩
      · right
        cases ho with
        | parallelLeft => exact .inl hd
        | parallelRight => exact .inr hd
    | restrict p labels =>
      have hp := hopens (.restrict p labels)
      refine ((hp.map fun h => .restrict h labels).or hp).of_imp fun u h => ?_
      rcases h.cases with ⟨a, hs⟩ | ⟨s, ho, hd⟩
      · cases hs with
        | restrict hs _ => exact .inl ⟨_, .step hs, rfl⟩
      · cases ho
        exact .inr hd
    | rename p renames =>
      have hp := hopens (.rename p renames)
      refine ((hp.map fun h => .rename h renames).or hp).of_imp fun u h => ?_
      rcases h.cases with ⟨a, hs⟩ | ⟨s, ho, hd⟩
      · cases hs with
        | rename hs _ => exact .inl ⟨_, .step hs, rfl⟩
      · cases ho
        exact .inr hd

end Term

end ProcessCalculus
