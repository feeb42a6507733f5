import ProcessCalculus.Proofs.Calculus.Reordering

/-!
# Terms up to the laws of the calculus

A term simplifies to another if the other comes from it by applying laws of the calculus at any depth, from
left to right, and by swapping the operands of sums and parallel compositions. The relation says for each term
former what may be left of it once its subterms are simplified, so a law applies to the simplified subterms.

* `Simplifies.trans`: simplified terms can be simplified further.
* `Simplifies.height_le`, `Simplifies.unfolding_le`: a term gets no deeper.
* `Simplifies.isBisimulation`: simplifying a term and, at the same time, all definitions is a strong
  bisimulation, also where definitions are missing or not guarded.
-/

namespace ProcessCalculus

namespace Term

/-- The second term is the first one with some laws applied and some operands swapped. -/
inductive Simplifies : Term → Term → Prop
  | null : Simplifies null null
  | name (n : String) : Simplifies (name n) (name n)
  | sum {l l' r r'} (hl : Simplifies l l') (hr : Simplifies r r') :
      Simplifies (sum l r) (sum l' r')
  | sumSwap {l l' r r'} (hl : Simplifies l r') (hr : Simplifies r l') :
      Simplifies (sum l r) (sum l' r')
  | sumNullLeft {l r t} (hl : Simplifies l null) (hr : Simplifies r t) : Simplifies (sum l r) t
  | sumNullRight {l r t} (hl : Simplifies l t) (hr : Simplifies r null) : Simplifies (sum l r) t
  | sumSame {l r t} (hl : Simplifies l t) (hr : Simplifies r t) : Simplifies (sum l r) t
  | parallel {l l' r r'} (hl : Simplifies l l') (hr : Simplifies r r') :
      Simplifies (parallel l r) (parallel l' r')
  | parallelSwap {l l' r r'} (hl : Simplifies l r') (hr : Simplifies r l') :
      Simplifies (parallel l r) (parallel l' r')
  | parallelNullLeft {l r t} (hl : Simplifies l null) (hr : Simplifies r t) :
      Simplifies (parallel l r) t
  | parallelNullRight {l r t} (hl : Simplifies l t) (hr : Simplifies r null) :
      Simplifies (parallel l r) t
  | act {t t'} (a : Action) (h : Simplifies t t') : Simplifies (act a t) (act a t')
  | restrict {t t'} (h : Simplifies t t') (labels : LabelSet) :
      Simplifies (restrict t labels) (restrict t' labels)
  | restrictNull {t} (h : Simplifies t null) (labels : LabelSet) :
      Simplifies (restrict t labels) null
  | restrictEmpty {t t'} {labels : LabelSet} (h : Simplifies t t') (hl : ∀ label, label ∉ labels) :
      Simplifies (restrict t labels) t'
  | restrictMerge {t u} {inner labels all : LabelSet} (h : Simplifies t (restrict u inner))
      (hl : ∀ label, label ∈ all ↔ label ∈ inner ∨ label ∈ labels) :
      Simplifies (restrict t labels) (restrict u all)
  | rename {t t'} (h : Simplifies t t') (renames : Renaming) :
      Simplifies (rename t renames) (rename t' renames)
  | renameNull {t} (h : Simplifies t null) (renames : Renaming) :
      Simplifies (rename t renames) null
  | delay {t t'} (d : UInt32) (h : Simplifies t t') : Simplifies (delay d t) (delay d t')

theorem Reordered.simplifies {s t : Term} (h : Reordered s t) : Simplifies s t := by
  induction h with
  | null => exact .null
  | name n => exact .name n
  | sum _ _ ihl ihr => exact .sum ihl ihr
  | sumSwap _ _ ihl ihr => exact .sumSwap ihl ihr
  | parallel _ _ ihl ihr => exact .parallel ihl ihr
  | parallelSwap _ _ ihl ihr => exact .parallelSwap ihl ihr
  | act a _ ih => exact .act a ih
  | restrict _ labels ih => exact .restrict ih labels
  | rename _ renames ih => exact .rename ih renames
  | delay d _ ih => exact .delay d ih

namespace Simplifies

variable {s t u : Term}

theorem refl (t : Term) : Simplifies t t :=
  (Reordered.refl t).simplifies

/-- By induction on the first simplification: whatever law is applied to its result can be applied at once. -/
theorem trans (h : Simplifies s t) (h' : Simplifies t u) : Simplifies s u := by
  induction h generalizing u with
  | null => exact h'
  | name n => exact h'
  | sum _ _ ihl ihr =>
    cases h' with
    | sum hl hr => exact .sum (ihl hl) (ihr hr)
    | sumSwap hl hr => exact .sumSwap (ihl hl) (ihr hr)
    | sumNullLeft hl hr => exact .sumNullLeft (ihl hl) (ihr hr)
    | sumNullRight hl hr => exact .sumNullRight (ihl hl) (ihr hr)
    | sumSame hl hr => exact .sumSame (ihl hl) (ihr hr)
  | sumSwap _ _ ihl ihr =>
    cases h' with
    | sum hl hr => exact .sumSwap (ihl hr) (ihr hl)
    | sumSwap hl hr => exact .sum (ihl hr) (ihr hl)
    | sumNullLeft hl hr => exact .sumNullRight (ihl hr) (ihr hl)
    | sumNullRight hl hr => exact .sumNullLeft (ihl hr) (ihr hl)
    | sumSame hl hr => exact .sumSame (ihl hr) (ihr hl)
  | sumNullLeft hl _ _ ihr => exact .sumNullLeft hl (ihr h')
  | sumNullRight _ hr ihl _ => exact .sumNullRight (ihl h') hr
  | sumSame _ _ ihl ihr => exact .sumSame (ihl h') (ihr h')
  | parallel _ _ ihl ihr =>
    cases h' with
    | parallel hl hr => exact .parallel (ihl hl) (ihr hr)
    | parallelSwap hl hr => exact .parallelSwap (ihl hl) (ihr hr)
    | parallelNullLeft hl hr => exact .parallelNullLeft (ihl hl) (ihr hr)
    | parallelNullRight hl hr => exact .parallelNullRight (ihl hl) (ihr hr)
  | parallelSwap _ _ ihl ihr =>
    cases h' with
    | parallel hl hr => exact .parallelSwap (ihl hr) (ihr hl)
    | parallelSwap hl hr => exact .parallel (ihl hr) (ihr hl)
    | parallelNullLeft hl hr => exact .parallelNullRight (ihl hr) (ihr hl)
    | parallelNullRight hl hr => exact .parallelNullLeft (ihl hr) (ihr hl)
  | parallelNullLeft hl _ _ ihr => exact .parallelNullLeft hl (ihr h')
  | parallelNullRight _ hr ihl _ => exact .parallelNullRight (ihl h') hr
  | act a _ ih =>
    cases h' with
    | act _ h => exact .act a (ih h)
  | restrict _ labels ih =>
    cases h' with
    | restrict h => exact .restrict (ih h) labels
    | restrictNull h => exact .restrictNull (ih h) labels
    | restrictEmpty h hl => exact .restrictEmpty (ih h) hl
    | restrictMerge h hl => exact .restrictMerge (ih h) hl
  | restrictNull h labels ih =>
    cases h'
    exact .restrictNull h labels
  | restrictEmpty _ hl ih => exact .restrictEmpty (ih h') hl
  | @restrictMerge t v inner labels all _ hl ih =>
    cases h' with
    | restrict h => exact .restrictMerge (ih (.restrict h inner)) hl
    | restrictNull h => exact .restrictNull (ih (.restrictNull h inner)) labels
    | restrictEmpty h he =>
      -- both restrictions are empty if the merged one is
      have hi (label : String) : label ∉ inner := fun hm => he label ((hl label).2 (.inl hm))
      have ho (label : String) : label ∉ labels := fun hm => he label ((hl label).2 (.inr hm))
      exact .restrictEmpty (ih (.restrictEmpty h hi)) ho
    | @restrictMerge _ _ inner' _ all' h hl' =>
      -- the two merges can be done in the other order
      have hinner : Simplifies _ (.restrict _ (inner' ∪ inner)) :=
        ih (.restrictMerge h fun label => LabelSet.mem_union)
      refine .restrictMerge hinner fun label => ?_
      rw [hl', hl, LabelSet.mem_union, or_assoc]
  | rename _ renames ih =>
    cases h' with
    | rename h => exact .rename (ih h) renames
    | renameNull h => exact .renameNull (ih h) renames
  | renameNull h renames ih =>
    cases h'
    exact .renameNull h renames
  | delay d _ ih =>
    cases h' with
    | delay _ h => exact .delay d (ih h)

theorem height_le (h : Simplifies s t) : t.height ≤ s.height := by
  induction h <;> simp only [height] at * <;> omega

theorem unfolding_le (h : Simplifies s t) (names : String → Nat) :
    t.unfolding names ≤ s.unfolding names := by
  induction h <;> simp only [unfolding] at * <;> omega

variable {defs defs' : String → Term → Prop} {a : Action}

private theorem not_step_null {t' : Term} : ¬ Step defs .null a t' := by
  intro h
  cases h

private theorem forth (hd : ∀ n t, defs n t → ∃ t', defs' n t' ∧ Simplifies t t') {s' : Term}
    (h : Simplifies s t) (hs : Step defs s a s') : ∃ t', Step defs' t a t' ∧ Simplifies s' t' := by
  induction hs generalizing t with
  | act a s =>
    cases h with
    | act _ h => exact ⟨_, .act a _, h⟩
  | delay d s =>
    cases h with
    | delay _ h => exact ⟨_, .delay d _, h⟩
  | sumLeft r _ ih =>
    cases h with
    | sum hl hr => exact (ih hl).imp fun _ ⟨ht, h'⟩ => ⟨.sumLeft _ ht, h'⟩
    | sumSwap hl hr => exact (ih hl).imp fun _ ⟨ht, h'⟩ => ⟨.sumRight _ ht, h'⟩
    | sumNullLeft hl hr =>
      obtain ⟨_, ht, -⟩ := ih hl
      exact absurd ht not_step_null
    | sumNullRight hl hr => exact ih hl
    | sumSame hl hr => exact ih hl
  | sumRight l _ ih =>
    cases h with
    | sum hl hr => exact (ih hr).imp fun _ ⟨ht, h'⟩ => ⟨.sumRight _ ht, h'⟩
    | sumSwap hl hr => exact (ih hr).imp fun _ ⟨ht, h'⟩ => ⟨.sumLeft _ ht, h'⟩
    | sumNullLeft hl hr => exact ih hr
    | sumNullRight hl hr =>
      obtain ⟨_, ht, -⟩ := ih hr
      exact absurd ht not_step_null
    | sumSame hl hr => exact ih hr
  | left r _ ih =>
    cases h with
    | parallel hl hr =>
      obtain ⟨t', ht, h'⟩ := ih hl
      exact ⟨_, .left _ ht, .parallel h' hr⟩
    | parallelSwap hl hr =>
      obtain ⟨t', ht, h'⟩ := ih hl
      exact ⟨_, .right _ ht, .parallelSwap h' hr⟩
    | parallelNullLeft hl hr =>
      obtain ⟨_, ht, -⟩ := ih hl
      exact absurd ht not_step_null
    | parallelNullRight hl hr =>
      obtain ⟨t', ht, h'⟩ := ih hl
      exact ⟨t', ht, .parallelNullRight h' hr⟩
  | right l _ ih =>
    cases h with
    | parallel hl hr =>
      obtain ⟨t', ht, h'⟩ := ih hr
      exact ⟨_, .right _ ht, .parallel hl h'⟩
    | parallelSwap hl hr =>
      obtain ⟨t', ht, h'⟩ := ih hr
      exact ⟨_, .left _ ht, .parallelSwap hl h'⟩
    | parallelNullLeft hl hr =>
      obtain ⟨t', ht, h'⟩ := ih hr
      exact ⟨t', ht, .parallelNullLeft hl h'⟩
    | parallelNullRight hl hr =>
      obtain ⟨_, ht, -⟩ := ih hr
      exact absurd ht not_step_null
  | @handshake _ _ _ _ _ p _ _ ihl ihr =>
    cases h with
    | parallel hl hr =>
      obtain ⟨l', hl', h₁⟩ := ihl hl
      obtain ⟨r', hr', h₂⟩ := ihr hr
      exact ⟨_, .handshake hl' hr', .parallel h₁ h₂⟩
    | parallelSwap hl hr =>
      obtain ⟨r', hr', h₁⟩ := ihl hl
      obtain ⟨l', hl', h₂⟩ := ihr hr
      rw [← p.opposite_opposite] at hr'
      exact ⟨_, .handshake hl' hr', .parallelSwap h₁ h₂⟩
    | parallelNullLeft hl hr =>
      obtain ⟨_, ht, -⟩ := ihl hl
      exact absurd ht not_step_null
    | parallelNullRight hl hr =>
      obtain ⟨_, ht, -⟩ := ihr hr
      exact absurd ht not_step_null
  | @restrict _ _ _ labels _ hidden ih =>
    cases h with
    | restrict h _ =>
      obtain ⟨t', ht, h'⟩ := ih h
      exact ⟨_, .restrict ht hidden, .restrict h' _⟩
    | restrictNull h _ =>
      obtain ⟨_, ht, -⟩ := ih h
      exact absurd ht not_step_null
    | restrictEmpty h hl =>
      obtain ⟨t', ht, h'⟩ := ih h
      exact ⟨t', ht, .restrictEmpty h' hl⟩
    | @restrictMerge _ _ _ _ all h hl =>
      obtain ⟨_, ht, h'⟩ := ih h
      cases ht with
      | restrict ht hidden' =>
        -- a label that the merged restriction hides is hidden by one of the two
        refine ⟨_, .restrict ht fun label hm => ?_, .restrictMerge h' hl⟩
        rcases (hl label).1 hm with hm | hm
        · exact hidden' label hm
        · exact hidden label hm
  | rename _ takes ih =>
    cases h with
    | rename h _ =>
      obtain ⟨t', ht, h'⟩ := ih h
      exact ⟨_, .rename ht takes, .rename h' _⟩
    | renameNull h _ =>
      obtain ⟨_, ht, -⟩ := ih h
      exact absurd ht not_step_null
  | unfold definition _ ih =>
    cases h with
    | name n =>
      obtain ⟨t₀, hd', h₀⟩ := hd _ _ definition
      obtain ⟨t', ht, h'⟩ := ih h₀
      exact ⟨t', .unfold hd' ht, h'⟩

/-- Steps are matched backwards if those of names are, where names are unfolded at most `n` times. By induction
on the simplification, since a law may be applied without any step getting a smaller derivation. -/
private theorem back_of_names {n : Nat}
    (hn : ∀ x a t', StepWithin defs' n (.name x) a t' → ∃ s', Step defs (.name x) a s' ∧ Simplifies s' t')
    {t' : Term} (h : Simplifies s t) (ht : StepWithin defs' n t a t') :
    ∃ s', Step defs s a s' ∧ Simplifies s' t' := by
  induction h generalizing a t' with
  | null => cases ht
  | name x => exact hn x a t' ht
  | sum _ _ ihl ihr =>
    cases ht with
    | sumLeft _ ht => exact (ihl ht).imp fun _ ⟨hs, h'⟩ => ⟨.sumLeft _ hs, h'⟩
    | sumRight _ ht => exact (ihr ht).imp fun _ ⟨hs, h'⟩ => ⟨.sumRight _ hs, h'⟩
  | sumSwap _ _ ihl ihr =>
    cases ht with
    | sumLeft _ ht => exact (ihr ht).imp fun _ ⟨hs, h'⟩ => ⟨.sumRight _ hs, h'⟩
    | sumRight _ ht => exact (ihl ht).imp fun _ ⟨hs, h'⟩ => ⟨.sumLeft _ hs, h'⟩
  | sumNullLeft _ _ _ ihr => exact (ihr ht).imp fun _ ⟨hs, h'⟩ => ⟨.sumRight _ hs, h'⟩
  | sumNullRight _ _ ihl _ => exact (ihl ht).imp fun _ ⟨hs, h'⟩ => ⟨.sumLeft _ hs, h'⟩
  | sumSame _ _ ihl _ => exact (ihl ht).imp fun _ ⟨hs, h'⟩ => ⟨.sumLeft _ hs, h'⟩
  | parallel hl hr ihl ihr =>
    cases ht with
    | left _ ht =>
      obtain ⟨l', hs, h'⟩ := ihl ht
      exact ⟨_, .left _ hs, .parallel h' hr⟩
    | right _ ht =>
      obtain ⟨r', hs, h'⟩ := ihr ht
      exact ⟨_, .right _ hs, .parallel hl h'⟩
    | handshake htl htr =>
      obtain ⟨l', hsl, hl'⟩ := ihl htl
      obtain ⟨r', hsr, hr'⟩ := ihr htr
      exact ⟨_, .handshake hsl hsr, .parallel hl' hr'⟩
  | parallelSwap hl hr ihl ihr =>
    cases ht with
    | left _ ht =>
      obtain ⟨r', hs, h'⟩ := ihr ht
      exact ⟨_, .right _ hs, .parallelSwap hl h'⟩
    | right _ ht =>
      obtain ⟨l', hs, h'⟩ := ihl ht
      exact ⟨_, .left _ hs, .parallelSwap h' hr⟩
    | @handshake _ _ _ _ _ _ p htl htr =>
      obtain ⟨r', hsr, hr'⟩ := ihr htl
      obtain ⟨l', hsl, hl'⟩ := ihl htr
      rw [← p.opposite_opposite] at hsr
      exact ⟨_, .handshake hsl hsr, .parallelSwap hl' hr'⟩
  | parallelNullLeft hl _ _ ihr =>
    obtain ⟨r', hs, h'⟩ := ihr ht
    exact ⟨_, .right _ hs, .parallelNullLeft hl h'⟩
  | parallelNullRight _ hr ihl _ =>
    obtain ⟨l', hs, h'⟩ := ihl ht
    exact ⟨_, .left _ hs, .parallelNullRight h' hr⟩
  | act _ h _ =>
    cases ht
    exact ⟨_, .act _ _, h⟩
  | restrict _ labels ih =>
    cases ht with
    | restrict ht hidden =>
      obtain ⟨s', hs, h'⟩ := ih ht
      exact ⟨_, .restrict hs hidden, .restrict h' labels⟩
  | restrictNull => cases ht
  | restrictEmpty _ hl ih =>
    -- an empty restriction hides nothing
    obtain ⟨s', hs, h'⟩ := ih ht
    exact ⟨_, .restrict hs fun label hm => absurd hm (hl label), .restrictEmpty h' hl⟩
  | restrictMerge _ hl ih =>
    cases ht with
    | restrict ht hidden =>
      obtain ⟨s', hs, h'⟩ := ih (.restrict ht fun label hm => hidden label ((hl label).2 (.inl hm)))
      exact ⟨_, .restrict hs fun label hm => hidden label ((hl label).2 (.inr hm)),
        .restrictMerge h' hl⟩
  | rename _ renames ih =>
    cases ht with
    | rename ht takes =>
      obtain ⟨s', hs, h'⟩ := ih ht
      exact ⟨_, .rename hs takes, .rename h' renames⟩
  | renameNull => cases ht
  | delay _ h _ =>
    cases ht
    exact ⟨_, .delay _ _, h⟩

private theorem back_of_name (hd : ∀ n t', defs' n t' → ∃ t, defs n t ∧ Simplifies t t') {n : Nat}
    {x : String} {t' : Term} (ht : StepWithin defs' n (.name x) a t') :
    ∃ s', Step defs (.name x) a s' ∧ Simplifies s' t' := by
  induction n generalizing x a t' with
  | zero => cases ht
  | succ n ih =>
    cases ht with
    | unfold definition ht =>
      obtain ⟨t₀, hd₀, h₀⟩ := hd _ _ definition
      obtain ⟨s', hs, h'⟩ := back_of_names (fun _ _ _ => ih) h₀ ht
      exact ⟨s', .unfold hd₀ hs, h'⟩

/-- Simplified terms make the steps of the terms that they come from, if the definitions on the two sides
simplify to each other as well. -/
theorem isBisimulation (hd : ∀ n t, defs n t → ∃ t', defs' n t' ∧ Simplifies t t')
    (hd' : ∀ n t', defs' n t' → ∃ t, defs n t ∧ Simplifies t t') :
    IsBisimulation (Step defs) (Step defs') Simplifies where
  forth h hs := forth hd h hs
  back h ht := by
    obtain ⟨n, ht⟩ := ht.within
    exact back_of_names (fun _ _ _ => back_of_name hd') h ht

end Simplifies

end Term

end ProcessCalculus
