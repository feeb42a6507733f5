import ProcessCalculus.Proofs.Calculus.Bisimulation
import ProcessCalculus.Proofs.Transition.Finiteness
import ProcessCalculus.Proofs.Transition.Partition
import ProcessCalculus.Proofs.Transition.Replies

/-!
# Quotients by a bisimulation

The processes that a stage merges behave like the processes of the generator below it if members of a class do. The
stage above that merges classes is a generator for the steps between representatives, and these match the steps of the
generator below: a process and the representative of its class are both bisimilar to the process. With saturated steps
in place of steps this holds as well, so a partition up to silent steps has a quotient up to silent steps.

* `Generator.Serves`: the generator answers for the processes of interest, with the steps of a relation.
* `Partition.serves_classes`, `Saturation.serves_saturated`, `Expansion.serves_known`: stages and generators that do.
* `Partition.Together`, `Partition.MergedStep`: processes of one class, and the steps between representatives.
* `Partition.IsQuotient`: what the stage is to the generator below.
* `Partition.isQuotient`: it is a quotient if processes of one class are bisimilar.
-/

namespace ProcessCalculus

open KnownTransitions Recorded Relation

/-- However the generator is asked from the state on, it answers for processes of interest with the steps of `step`,
which lead to processes of interest again. No answer ever changes. -/
structure Generator.Serves {σ : Type} (g : Generator σ) (s : Program × σ) (interest : ProcessId → Prop)
    (step : ProcessId → Action → ProcessId → Prop) : Prop where
  steady : g.Steady s
  closed {x y : ProcessId} {a : Action} : interest x → step x a y → interest y
  exists_answer {log : Log ProcessId Fault Transitions} {t : Program × σ} {id : ProcessId} :
    Asked g s log t → interest id → ∃ ts, answer (g id) t = .ok ts ∧ ∀ x, x ∈ ts ↔ step id x.action x.target

variable {σ : Type} {inner : Generator σ} {s t : Program × σ} {interest : ProcessId → Prop}
  {step : ProcessId → Action → ProcessId → Prop} {log : Log ProcessId Fault Transitions} {id m x y z : ProcessId}
  {a : Action}

namespace Generator.Serves

/-- What was answered for a process of interest are its steps. -/
theorem of_mem (h : inner.Serves s interest step) (hasked : Asked inner s log t) (hid : interest id)
    {response : Except Fault Transitions} (hmem : (id, response) ∈ log) :
    ∃ ts, response = .ok ts ∧ ∀ x, x ∈ ts ↔ step id x.action x.target := by
  induction hasked with
  | nil => exact absurd hmem List.not_mem_nil
  | snoc hasked i ih =>
    rcases List.mem_append.1 hmem with hmem | hmem
    · exact ih hmem
    · cases List.mem_singleton.1 hmem
      exact h.exists_answer hasked hid

theorem step_of_known (h : inner.Serves s interest step) (hasked : Asked inner s log t) (hx : interest x)
    (hstep : (ofLog log).Step x a y) : step x a y := by
  obtain ⟨ts, hts, ht⟩ := hstep
  obtain ⟨us, hus, hsteps⟩ := h.of_mem hasked hx (mem_of_ofLog hts)
  cases hus
  exact (hsteps _).1 ht

theorem known_of_step (h : inner.Serves s interest step) (hasked : Asked inner s log t) (hx : interest x)
    (hanswer : ∃ ts, (ofLog log)[x]? = some ts) (hstep : step x a y) : (ofLog log).Step x a y := by
  obtain ⟨ts, hts⟩ := hanswer
  obtain ⟨us, hus, hsteps⟩ := h.of_mem hasked hx (mem_of_ofLog hts)
  cases hus
  exact ⟨ts, hts, (hsteps _).2 hstep⟩

end Generator.Serves

/-! ### Saturated steps -/

/-- Silent steps lead from a process of interest to at most `limit` processes. -/
def ClosuresWithin (limit : Nat) (interest : ProcessId → Prop) (step : ProcessId → Action → ProcessId → Prop) : Prop :=
  ∀ x, interest x → ∃ l : List ProcessId, l.length ≤ limit ∧ ∀ y, SilentPath step x y → y ∈ l

namespace Generator.Serves

theorem silentPath_of_reaches (h : inner.Serves s interest step) (hasked : Asked inner s log t) (hx : interest x)
    (hy : (ofLog log).Reaches x y) : SilentPath step x y ∧ interest y := by
  induction hy with
  | refl => exact ⟨.refl, hx⟩
  | tail _ hstep ih =>
    have hstep := h.step_of_known hasked ih.2 hstep
    exact ⟨ih.1.tail hstep, h.closed ih.2 hstep⟩

theorem saturated_of_known (h : inner.Serves s interest step) (hasked : Asked inner s log t) (hx : interest x)
    (hy : (ofLog log).Saturated x a y) : ProcessCalculus.Saturated step x a y ∧ interest y := by
  obtain ⟨hvisible, u, v, hu, hv, hy⟩ := hy
  obtain ⟨hu, hinterest⟩ := h.silentPath_of_reaches hasked hx hu
  have hv := h.step_of_known hasked hinterest hv
  obtain ⟨hy, hinterest⟩ := h.silentPath_of_reaches hasked (h.closed hinterest hv) hy
  exact ⟨⟨hvisible, u, v, hu, hv, hy⟩, hinterest⟩

theorem interest_of_visited (h : inner.Serves s interest step) (hasked : Asked inner s log t) (hx : interest x)
    (hy : (ofLog log).Visited x y) : interest y := by
  rcases hy with hy | ⟨a, hy⟩
  · exact (h.silentPath_of_reaches hasked hx hy).2
  · exact (h.saturated_of_known hasked hx hy).2

/-- A silent path is known where all processes on it are answered. -/
theorem reaches_of_silentPath (h : inner.Serves s interest step) (hasked : Asked inner s log t) (hx : interest x)
    (hanswer : ∀ z, (ofLog log).Reaches x z → ∃ ts, (ofLog log)[z]? = some ts) (hy : SilentPath step x y) :
    (ofLog log).Reaches x y := by
  induction hy with
  | refl => exact .refl
  | tail _ hstep ih =>
    exact ih.tail (h.known_of_step hasked (h.silentPath_of_reaches hasked hx ih).2 (hanswer _ ih) hstep)

/-- Saturated answers are the saturated steps. -/
theorem mem_saturation (h : inner.Serves s interest step) (hasked : Asked inner s log t) (hid : interest id)
    {ts : Transitions} (hts : (ofLog log).IsSaturation id ts) (u : Transition) :
    u ∈ ts ↔ ProcessCalculus.Saturated step id u.action u.target := by
  rw [hts.mem_iff]
  refine ⟨fun hu => (h.saturated_of_known hasked hid hu).1, ?_⟩
  rintro ⟨hvisible, x, y, hx, hstep, hy⟩
  have hx := h.reaches_of_silentPath hasked hid (fun z hz => hts.exists_answer (.inl hz)) hx
  have hinterest := (h.silentPath_of_reaches hasked hid hx).2
  have hknown := h.known_of_step hasked hinterest (hts.exists_answer (.inl hx)) hstep
  refine ⟨hvisible, x, y, hx, hknown, ?_⟩
  -- what follows the visible step is looked at as a saturated step of its own
  refine h.reaches_of_silentPath hasked (h.closed hinterest hstep) (fun z hz => hts.exists_answer (.inr ?_)) hy
  exact ⟨u.action, hvisible, x, y, hx, hknown, hz⟩

end Generator.Serves

namespace Saturation

variable {limit : Nat} {p : Program} {n : σ}

/-- What is asked of the stage asks something of the generator below. -/
theorem exists_asked (hsteady : inner.Steady (p, n)) {t : Program × (Saturation × σ)}
    (h : Asked (successors limit inner) (p, ∅, n) log t) : ∃ below, Valid inner (p, n) Records (below, t) := by
  induction h with
  | nil => exact ⟨[], .nil, .empty _⟩
  | @snoc log t _ i ih =>
    obtain ⟨below, hvalid⟩ := ih
    rcases answered_of_ends (c := successors limit inner i)
        (ends_successors_above (k := (below, t)) hsteady hvalid i) with
      ⟨ts, -, k', hk', hadvances, -⟩ | ⟨e, -, k', part, hk', hadds, -⟩
    · exact ⟨k'.1, hk' ▸ hadvances.valid⟩
    · exact ⟨k'.1, hk' ▸ hadds.toValid⟩

/-- The stage answers with the saturated steps, if the silent closures of processes of interest are small enough. -/
theorem serves_saturated (h : inner.Serves (p, n) interest step) (hfit : ClosuresWithin limit interest step) :
    (successors limit inner).Serves (p, ∅, n) interest (Saturated step) where
  steady := steady _
  closed {x y a} hx := by
    rintro ⟨-, u, v, hu, hv, hy⟩
    have hpath {x y : ProcessId} (hx : interest x) (hy : SilentPath step x y) : interest y := by
      induction hy with
      | refl => exact hx
      | tail _ hstep ih => exact h.closed ih hstep
    exact hpath (h.closed (hpath hx hu) hv) hy
  exists_answer {log t id} hasked hid := by
    obtain ⟨below, hvalid⟩ := exists_asked h.steady hasked
    rcases answered_of_ends (c := successors limit inner id)
        (ends_successors_above (k := (below, t)) h.steady hvalid id) with
      ⟨ts, hts, k', -, hadvances, hsaturation⟩ | ⟨e, -, k', part, -, hadds, hfails⟩
    · exact ⟨ts, hts, h.mem_saturation hadvances.valid.asked hid hsaturation⟩
    · exfalso
      rcases hfails with ⟨front, x, rfl, -, hx⟩ | ⟨-, -, x, hx, hmany⟩
      · have hmem : (x, .error e) ∈ k'.1 := by
          rw [hadds.log_eq]
          simp
        obtain ⟨ts, hts, -⟩ := h.of_mem hadds.asked (h.interest_of_visited hadds.asked hid hx) hmem
        cases hts
      · have hinterest := h.interest_of_visited hadds.asked hid hx
        obtain ⟨l, hlength, hl⟩ := hfit x hinterest
        exact hmany ⟨l, hlength, fun y hy => hl y (h.silentPath_of_reaches hadds.asked hinterest hy).1⟩

end Saturation

namespace Expansion

/-- Expansion that knows the transitions of all processes of interest serves them. -/
theorem serves_known {k : Program × Expansion} (hclosed : ∀ x a y, interest x → step x a y → interest y)
    (hknown : ∀ id, interest id → ∃ ts, k.2.known[id]? = some ts ∧ ∀ x, x ∈ ts ↔ step id x.action x.target) :
    successors.Serves k interest step where
  steady := steady _
  closed := hclosed _ _ _
  exists_answer {log t id} hasked hid := by
    obtain ⟨ts, hts, hsteps⟩ := hknown id hid
    have hkept : k.2.known.Kept t.2.known := by
      induction hasked with
      | nil => exact .refl _
      | @snoc log t _ i ih =>
        refine Ends.after (P := fun t' : Program × Expansion => k.2.known.Kept t'.2.known) ?_
        exact (ends_successors_kept i t).mono (fun _ _ h => ih.trans h.1) fun _ _ h => ih.trans h
    exact ⟨ts, by rw [answer, successors_of_known (hkept id ts hts)], hsteps⟩

end Expansion

/-! ### The steps between representatives -/

namespace Partition

variable {part : Partition} {lists : List (List ProcessId)} {p : Program} {n : σ}

/-- Two processes of interest are in one class. -/
def Together (part : Partition) (interest : ProcessId → Prop) (x y : ProcessId) : Prop :=
  interest x ∧ y ∈ (part.classOf x).members

/-- A step of some member of a class, between representatives. -/
def MergedStep (part : Partition) (step : ProcessId → Action → ProcessId → Prop) (x : ProcessId) (a : Action)
    (y : ProcessId) : Prop :=
  ∃ m ∈ (part.classOf x).members, ∃ z, step m a z ∧ y = (part.classOf z).representative

/-- The stage that merges the classes is a quotient of the generator below it: it answers with the steps between
representatives, a process and the representative of its class are bisimilar to the process, and the answer for a class
is what any member alone would give. -/
structure IsQuotient (part : Partition) (inner : Generator σ) (p : Program) (n : σ) (interest : ProcessId → Prop)
    (step : ProcessId → Action → ProcessId → Prop) : Prop where
  serves : (Classes.successors part.classOf inner).Serves (p, ∅, n) interest (part.MergedStep step)
  bisimilar {id : ProcessId} : interest id → Bisimilar (part.MergedStep step) step id id
  representative {id : ProcessId} :
    interest id → Bisimilar (part.MergedStep step) step (part.classOf id).representative id
  answer_eq {log below : Log ProcessId Fault Transitions} {t : Program × (KnownTransitions × σ)} {t' : Program × σ}
    {id m : ProcessId} {ts us : Transitions} :
    Asked (Classes.successors part.classOf inner) (p, ∅, n) log t → Asked inner (p, n) below t' → interest id →
      m ∈ (part.classOf id).members → (id, .ok ts) ∈ log → (m, .ok us) ∈ below →
        ts.toList = (TreapSet.ofList (us.toList.map (Classes.merge part.classOf)) : Transitions).toList

theorem classOf_eq_of_together (hxy : part.Together interest x y) : part.classOf y = part.classOf x :=
  classOf_eq_of_mem hxy.2

section Quotient

variable (h : part.tables.IsOf lists) (hserves : inner.Serves (p, n) interest step)
  (hclass : ∀ x, interest x → ∀ y ∈ (part.classOf x).members, interest y)

include h hserves hclass

/-- Above a generator that answers for all processes of interest, so does the stage. -/
theorem serves_classes :
    (Classes.successors part.classOf inner).Serves (p, ∅, n) interest (part.MergedStep step) where
  steady := Classes.steady _ _
  closed {x y a} hx := by
    rintro ⟨m, hm, z, hstep, rfl⟩
    exact hclass z (hserves.closed (hclass x hx m hm) hstep) _ (representative_mem_classOf h z)
  exists_answer {log t id} hasked hid := by
    have hnext := hasked.snoc id
    obtain ⟨parts, hvalid, hclasses⟩ := Classes.exists_parts hserves.steady hnext
    obtain ⟨asked, hmem, hright⟩ := (forall₂_exists hclasses).1 _ (List.mem_append_right _ List.mem_cons_self)
    have hright := isRight_of_classes h hright
    cases hanswer : answer (Classes.successors part.classOf inner id) t with
    | error e =>
      rw [hanswer] at hright
      obtain ⟨front, x, rfl, -, hx⟩ := hright
      have hfault : (x, .error e) ∈ parts.flatten := List.mem_flatten.2 ⟨_, hmem, by simp⟩
      obtain ⟨ts, hts, -⟩ := hserves.of_mem hvalid.asked (hclass id hid x hx) hfault
      cases hts
    | ok ts =>
      rw [hanswer] at hright
      obtain ⟨-, hmerged⟩ := hright
      refine ⟨ts, rfl, fun u => hmerged.mem_iff.trans ?_⟩
      refine exists_congr fun m => and_congr_right fun hm => exists_congr fun z => and_congr_left fun _ => ?_
      have hinterest := hclass id hid m hm
      exact ⟨hserves.step_of_known hvalid.asked hinterest,
        hserves.known_of_step hvalid.asked hinterest (hmerged.exists_answer hm)⟩

variable (hbisim : IsBisimulation step step (part.Together interest))

include hbisim

omit h hserves in
/-- Where processes of one class are bisimilar, each of them has all steps of its class. -/
theorem mergedStep_iff (hid : interest id) (hm : m ∈ (part.classOf id).members) :
    part.MergedStep step id a y ↔ ∃ z, step m a z ∧ y = (part.classOf z).representative := by
  refine ⟨?_, fun ⟨z, hstep, hy⟩ => ⟨m, hm, z, hstep, hy⟩⟩
  rintro ⟨m', hm', z, hstep, rfl⟩
  have htogether : part.Together interest m' m := ⟨hclass id hid m' hm', by rwa [classOf_eq_of_mem hm']⟩
  obtain ⟨z', hstep', hz⟩ := hbisim.forth htogether hstep
  exact ⟨z', hstep', by rw [classOf_eq_of_together hz]⟩

/-- The members of a class, in the quotient, and the process of the class that is looked at in the generator below. -/
theorem isBisimulation_merged :
    IsBisimulation (part.MergedStep step) step fun x y => interest y ∧ x ∈ (part.classOf y).members where
  forth {x y a x'} hxy hstep := by
    obtain ⟨hy, hx⟩ := hxy
    have hy' : y ∈ (part.classOf x).members := by
      rw [classOf_eq_of_mem hx]
      exact part.mem_classOf_self y
    obtain ⟨z, hz, rfl⟩ := (mergedStep_iff hclass hbisim (hclass y hy x hx) hy').1 hstep
    exact ⟨z, hz, hserves.closed hy hz, representative_mem_classOf h z⟩
  back {x y a y'} hxy hstep := by
    obtain ⟨hy, hx⟩ := hxy
    have hy' : y ∈ (part.classOf x).members := by
      rw [classOf_eq_of_mem hx]
      exact part.mem_classOf_self y
    exact ⟨_, ⟨y, hy', y', hstep, rfl⟩, hserves.closed hy hstep, representative_mem_classOf h y'⟩

/-- If processes of one class are bisimilar, merging them gives a quotient. -/
theorem isQuotient : part.IsQuotient inner p n interest step where
  serves := serves_classes h hserves hclass
  bisimilar {id} hid := ⟨_, isBisimulation_merged h hserves hclass hbisim, hid, part.mem_classOf_self id⟩
  representative {id} hid :=
    ⟨_, isBisimulation_merged h hserves hclass hbisim, hid, representative_mem_classOf h id⟩
  answer_eq {log below t t' id m ts us} hasked hbelow hid hm hts hus := by
    obtain ⟨ts', hts', hmerged⟩ := (serves_classes h hserves hclass).of_mem hasked hid hts
    cases hts'
    obtain ⟨us', hus', hsteps⟩ := hserves.of_mem hbelow (hclass id hid m hm) hus
    cases hus'
    rw [TreapSet.toList_eq_iff]
    intro u
    rw [hmerged, mergedStep_iff hclass hbisim hid hm, TreapSet.mem_ofList, List.mem_map]
    constructor
    · rintro ⟨z, hstep, hu⟩
      refine ⟨⟨u.action, z⟩, (hsteps _).2 hstep, ?_⟩
      rw [Classes.merge, ← hu]
    · rintro ⟨v, hv, rfl⟩
      exact ⟨v.target, (hsteps v).1 hv, rfl⟩

end Quotient

/-- A stage that merges the classes of a partition, above a generator that answers for all processes of interest and
never changes an answer. If processes of one class are bisimilar, it is a quotient of the generator. If they are so up
to silent steps, it is one when the generator is saturated first, provided that silent closures stay within the limit of
that search. -/
theorem quotient_bisimilar (hpart : ofLists lists = .ok part) (hserves : inner.Serves (p, n) interest step)
    (hclass : ∀ x, interest x → ∀ y ∈ (part.classOf x).members, interest y) :
    (IsBisimulation step step (part.Together interest) → part.IsQuotient inner p n interest step) ∧
      ∀ limit, ClosuresWithin limit interest step →
        IsBisimulation (Saturated step) (Saturated step) (part.Together interest) →
          part.IsQuotient (Saturation.successors limit inner) p (∅, n) interest (Saturated step) := by
  have h := isOf_ofLists hpart
  refine ⟨fun hbisim => isQuotient h hserves hclass hbisim, fun limit hfit hbisim => ?_⟩
  exact isQuotient h (Saturation.serves_saturated hserves hfit) hclass hbisim

/-- The terms `a.0`, twice, and `b.a.0`, once with each of them, with the identifiers from 1 to 4. -/
private def twoLadders : Program :=
  let p := (Program.add ∅ .null).2
  let p := (p.add (.act (.visible "a" .input) 0)).2
  let p := (p.add (.act (.visible "a" .input) 0)).2
  let p := (p.add (.act (.visible "b" .input) 1)).2
  (p.add (.act (.visible "b" .input) 2)).2

/-- Where the terms lead. -/
private def ladderSteps : ProcessId → List Transition
  | 1 | 2 => [⟨.visible "a" .input, 0⟩]
  | 3 => [⟨.visible "b" .input, 1⟩]
  | 4 => [⟨.visible "b" .input, 2⟩]
  | _ => []

/-- The steps of the ladders. -/
private def LadderStep (x : ProcessId) (a : Action) (y : ProcessId) : Prop :=
  ⟨a, y⟩ ∈ ladderSteps x

/-- All five terms were asked for. -/
private def climbed : Program × Expansion :=
  (List.range 5).foldl (fun t id => after (Expansion.successors id) t) (twoLadders, ∅)

private theorem serves_climbed : Expansion.successors.Serves (climbed.1, climbed.2) (· < 5) LadderStep := by
  refine Expansion.serves_known (fun x a y hx hstep => ?_) fun id hid => ?_
  · have htargets : ∀ x < 5, ∀ t ∈ ladderSteps x, t.target < 5 := by decide
    exact htargets x hx _ hstep
  · have hlists : ∀ id < 5, climbed.2.known[id]?.map TreapSet.toList = some (ladderSteps id) := by decide +kernel
    obtain ⟨ts, hts, hlist⟩ := Option.map_eq_some_iff.1 (hlists id hid)
    refine ⟨ts, hts, fun t => ?_⟩
    rw [TreapSet.mem_def, hlist, LadderStep]

/-- The classes of the two rungs of each height. -/
private def rungs : ClassTables where
  classes := #[⟨1, [1, 2]⟩, ⟨3, [3, 4]⟩]
  positions := ((((∅ : Std.TreeMap ProcessId Nat).insert 1 0).insert 2 0).insert 3 1).insert 4 1

private theorem ofLists_rungs : ClassTables.ofLists [[2, 1], [4, 3]] = .ok rungs := by
  cbv

/-- The two rungs of each height are one class, and 3 stands for both upper ones. -/
theorem quotient_bisimilar_twoLadders :
    ∃ part, ofLists [[2, 1], [4, 3]] = .ok part ∧
      Expansion.successors.Serves (climbed.1, climbed.2) (· < 5) LadderStep ∧
      (∀ x, x < 5 → ∀ y ∈ (part.classOf x).members, y < 5) ∧
      IsBisimulation LadderStep LadderStep (part.Together (· < 5)) ∧ ClosuresWithin 5 (· < 5) LadderStep ∧
      part.IsQuotient Expansion.successors climbed.1 climbed.2 (· < 5) LadderStep ∧
      part.IsQuotient (Saturation.successors 5 Expansion.successors) climbed.1 (∅, climbed.2) (· < 5)
        (Saturated LadderStep) := by
  have hpart := ofLists_of_ok ofLists_rungs
  let part : Partition := ⟨rungs, ClassTables.agree_ofLists ofLists_rungs⟩
  have hmembers : ∀ x < 5, ∀ y ∈ (part.classOf x).members, y < 5 := by decide
  have hforth : ∀ x < 5, ∀ y ∈ (part.classOf x).members, ∀ t ∈ ladderSteps x, ∃ u ∈ ladderSteps y,
      u.action = t.action ∧ t.target < 5 ∧ u.target ∈ (part.classOf t.target).members := by
    decide
  have hback : ∀ x < 5, ∀ y ∈ (part.classOf x).members, ∀ u ∈ ladderSteps y, ∃ t ∈ ladderSteps x,
      t.action = u.action ∧ t.target < 5 ∧ u.target ∈ (part.classOf t.target).members := by
    decide
  have hbisim : IsBisimulation LadderStep LadderStep (part.Together (· < 5)) := by
    constructor
    · rintro x y a x' ⟨hx, hy⟩ hstep
      obtain ⟨u, hu, rfl, htarget⟩ := hforth x hx y hy _ hstep
      exact ⟨u.target, hu, htarget⟩
    · rintro x y a y' ⟨hx, hy⟩ hstep
      obtain ⟨t, ht, rfl, htarget⟩ := hback x hx y hy _ hstep
      exact ⟨t.target, ht, htarget⟩
  have hfit : ClosuresWithin 5 (· < 5) LadderStep := by
    refine fun x hx => ⟨List.range 5, by simp, fun y hy => List.mem_range.2 ?_⟩
    induction hy with
    | refl => exact hx
    | tail _ hstep ih => exact serves_climbed.closed ih hstep
  obtain ⟨hstrong, hweak⟩ := quotient_bisimilar hpart serves_climbed hmembers
  exact ⟨part, hpart, serves_climbed, hmembers, hbisim, hfit, hstrong hbisim, hweak 5 hfit hbisim.saturated⟩

end Partition

end ProcessCalculus
