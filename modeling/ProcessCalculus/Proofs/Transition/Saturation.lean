import ProcessCalculus.Proofs.Transition.Closures

/-!
# Saturated answers

A stage that saturates turns a generator that is correct for some steps into one that is correct for the saturated
steps, those with any number of silent steps before and after one that is not silent.

* `Saturation.IsSaturated`, `Saturation.Covers`: what is found is right, and all that follows a step is found.
* `Saturation.Found`: both, for the processes that the search has seen.
* `Saturation.correct`: the obligations of a generator, from those of the inner one.
-/

namespace ProcessCalculus

open Generator.State KnownTransitions Relation Search Term

namespace Saturation

/-- In a reading, the transition is a saturated step of the root. -/
structure IsSaturated (step : Term → Action → Term → Prop) (r : Reading) (root : ProcessId) (t : Transition) :
    Prop where
  root_lt : root < r.program.size
  lt : t.target < r.program.size
  exists_step : ∃ u, Saturated step (r.term root) t.action u ∧ Simplifies u (r.term t.target)

/-- The transition and all silent steps after it are found. -/
structure Covers (step : Term → Action → Term → Prop) (r : Reading) (found : Transitions) (t : Transition) :
    Prop where
  lt : t.target < r.program.size
  exists_mem {u : Term} : SilentPath step (r.term t.target) u →
    ∃ t' ∈ found, t'.action = t.action ∧ Simplifies u (r.term t'.target)

/-- What the search for saturated steps has found in the processes that it has seen. -/
structure Found (step : Term → Action → Term → Prop) (r : Reading) (known : KnownTransitions) (root : ProcessId)
    (found : Transitions) (seen : ProcessSet) : Prop where
  saturated {t : Transition} : t ∈ found → IsSaturated step r root t
  covers {x : ProcessId} : x ∈ seen →
    ∃ ts, known[x]? = some ts ∧ ∀ t ∈ ts, t.action ≠ .silent → Covers step r found t

section Found

variable {step : Term → Action → Term → Prop} {r r' : Reading} {known : KnownTransitions} {root x : ProcessId}
  {t : Transition} {ts found found' : Transitions} {seen : ProcessSet}

namespace IsSaturated

theorem keeps (h : IsSaturated step r root t) (hk : r.Keeps r') : IsSaturated step r' root t where
  root_lt := Nat.lt_of_lt_of_le h.root_lt hk.size_le
  lt := Nat.lt_of_lt_of_le h.lt hk.size_le
  exists_step := by
    rw [hk.term_eq h.root_lt, hk.term_eq h.lt]
    exact h.exists_step

/-- A step that is not silent, of a process that silent steps reach. -/
theorem of_reaches (hb : IsBisimulation step step Simplifies) (ha : known.Answer step Simplifies r)
    (hx : known.Reaches root x) (hts : known[x]? = some ts) (ht : t ∈ ts) (hvisible : t.action ≠ .silent) :
    IsSaturated step r root t where
  root_lt := by
    rcases lt_of_reaches ha hx with rfl | hlt
    · exact (ha hts).lt
    · exact hlt.1
  lt := (ha hts).target_lt ht
  exists_step := by
    obtain ⟨u, hu, hux⟩ := exists_silentPath hb ha hx
    obtain ⟨v, hv, hvt⟩ := (ha hts).enumerates.sound ⟨t, ht, rfl, rfl⟩
    obtain ⟨v', hv', hle⟩ := hb.back hux hv
    exact ⟨v', ⟨hvisible, u, v', hu, hv', .refl⟩, hle.trans hvt⟩

/-- Silent steps may follow. -/
theorem of_closure (hb : IsBisimulation step step Simplifies) (h : IsSaturated step r root t)
    {closure : List ProcessId} (hc : IsClosure step r t.target closure) (hx : x ∈ closure) :
    IsSaturated step r root ⟨t.action, x⟩ where
  root_lt := h.root_lt
  lt := hc.mem_lt hx
  exists_step := by
    obtain ⟨u, ⟨hvisible, s, v, hs, hv, hu⟩, hut⟩ := h.exists_step
    obtain ⟨w, hw, hwx⟩ := hc.sound hx
    obtain ⟨w', hw', hle⟩ := hb.swap.silentPath hut hw
    exact ⟨w', ⟨hvisible, s, v, hs, hv, hu.trans hw'⟩, Simplifies.trans hle hwx⟩

end IsSaturated

theorem Covers.keeps (h : Covers step r found t) (hf : ∀ t ∈ found, IsSaturated step r root t) (hk : r.Keeps r')
    (hsub : ∀ t ∈ found, t ∈ found') : Covers step r' found' t where
  lt := Nat.lt_of_lt_of_le h.lt hk.size_le
  exists_mem hu := by
    rw [hk.term_eq h.lt] at hu
    obtain ⟨t', ht', ha, hle⟩ := h.exists_mem hu
    exact ⟨t', hsub t' ht', ha, by rwa [hk.term_eq (hf t' ht').lt]⟩

/-- What a search has found when it ends answers for its root. -/
theorem Found.answers (hb : IsBisimulation step step Simplifies) (ha : known.Answer step Simplifies r)
    (hp : Progress known root [] seen) (hf : Found step r known root found seen) :
    Answers (Saturated step) Simplifies r root found where
  lt := (IsClosure.of_progress hb ha hp).lt
  target_lt ht := (hf.saturated ht).lt
  enumerates := by
    constructor
    · rintro a v ⟨t, ht, rfl, rfl⟩
      exact (hf.saturated ht).exists_step
    · rintro a u ⟨hvisible, s, v, hs, hv, hu⟩
      -- the step that is not silent is found where the silent steps before it lead
      obtain ⟨x, hx, hsx⟩ := exists_mem_of_silentPath hb ha hp hs
      obtain ⟨v', hv', hle⟩ := hb.forth hsx hv
      obtain ⟨ts, hts, hcovers⟩ := hf.covers hx
      obtain ⟨_, ⟨t, ht, rfl, rfl⟩, hvt⟩ := (ha hts).enumerates.complete hv'
      obtain ⟨u', hu', hle'⟩ := hb.silentPath (hle.trans hvt) hu
      obtain ⟨t', ht', hact, hut⟩ := (hcovers t ht hvisible).exists_mem hu'
      exact ⟨_, ⟨t', ht', hact, rfl⟩, hle'.trans hut⟩

end Found

variable {σ : Type} {defs : String → Term → Prop} {step : Term → Action → Term → Prop} {inner : Generator σ}
  {answered : σ → KnownTransitions} {excused : Fault → σ → Prop} {I : Reading → σ → Prop} {limit : Nat}
  {root x : ProcessId} {t : Transition} {found : Transitions} {k k₀ : Generator.State (Saturation × σ)}

theorem Fails.of_later {fault : Fault} {s : Program × (Saturation × σ)} (hk : Later step answered I k₀ k)
    (h : Fails step answered excused I limit k root fault s) : Fails step answered excused I limit k₀ root fault s := by
  obtain ⟨k', rfl, hleads, hwhy⟩ := h
  exact ⟨k', rfl, hk.toLeads.trans hleads, hwhy.imp_left (Nat.le_trans hk.preserves.size_le)⟩

variable (h : inner.Correct defs step answered excused I) (hb : IsBisimulation step step Simplifies)

include h hb

/-- A saturated step is added with all silent steps after it. -/
theorem ends_addSaturated (hk : Invariant step I k.1 k.2) (htotal : k.1.Total defs)
    (hf : ∀ t ∈ found, IsSaturated step k.1 root t) (ht : IsSaturated step k.1 root t) :
    Ends (addSaturated limit inner found t) k.toPair
      (fun found' s => ∃ k' : Generator.State (Saturation × σ), k'.toPair = s ∧ Later step answered I k k' ∧
        (∀ t ∈ found', IsSaturated step k'.1 root t) ∧ (∀ t ∈ found, t ∈ found') ∧ Covers step k'.1 found' t)
      fun fault s => Fails step answered excused I limit k root fault s := by
  unfold addSaturated
  rw [ends_bind]
  refine (ends_silentClosure h hb hk htotal t.target).mono ?_ ?_
  · rintro closure _ ⟨k', rfl, hk', hc⟩
    rw [ends_pure]
    have hkeeps := hk'.preserves.toKeeps
    refine ⟨k', rfl, hk', fun t' ht' => ?_, fun t' ht' => TreapSet.mem_insertMany.2 (.inr ht'), hc.lt, fun hu => ?_⟩
    · rcases TreapSet.mem_insertMany.1 ht' with ht' | ht'
      · obtain ⟨x, hx, rfl⟩ := List.mem_map.1 ht'
        exact (ht.keeps hkeeps).of_closure hb hc hx
      · exact (hf t' ht').keeps hkeeps
    · obtain ⟨x, hx, hle⟩ := hc.complete hu
      exact ⟨⟨t.action, x⟩, TreapSet.mem_insertMany.2 (.inl (List.mem_map_of_mem hx)), rfl, hle⟩
  · rintro _ s ⟨k', rfl, hleads, hwhy⟩
    exact ⟨k', rfl, hleads, .inr (hwhy.resolve_left (Nat.not_le_of_lt ht.lt))⟩

/-- All saturated steps of a list are added. -/
theorem ends_addAll (hk : Invariant step I k.1 k.2) (htotal : k.1.Total defs)
    (hf : ∀ t ∈ found, IsSaturated step k.1 root t) {ts : List Transition}
    (hts : ∀ t ∈ ts, IsSaturated step k.1 root t) :
    Ends (ts.foldlM (addSaturated limit inner) found) k.toPair
      (fun found' s => ∃ k' : Generator.State (Saturation × σ), k'.toPair = s ∧ Later step answered I k k' ∧
        (∀ t ∈ found', IsSaturated step k'.1 root t) ∧ (∀ t ∈ ts, Covers step k'.1 found' t) ∧
        ∀ t, Covers step k.1 found t → Covers step k'.1 found' t)
      fun fault s => Fails step answered excused I limit k root fault s := by
  refine (Ends.foldlM (w := toPair)
    (I := fun k' found' => Later step answered I k k' ∧ ∀ t ∈ found', IsSaturated step k'.1 root t)
    (P := fun k' found' t => Covers step k'.1 found' t) (fun t ht k' found' hk' => ?_) ⟨.refl hk, hf⟩).mono ?_
    fun _ _ h => h
  · obtain ⟨hl, hf'⟩ := hk'
    refine (ends_addSaturated h hb hl.invariant (htotal.preserves hl.preserves) hf'
      ((hts t ht).keeps hl.preserves.toKeeps)).mono ?_ fun _ _ hs => hs.of_later hl
    rintro found'' _ ⟨k'', rfl, hl', hf'', hsub, hcovers⟩
    exact ⟨k'', rfl, ⟨hl.trans hl', hf''⟩, hcovers, fun _ hc => hc.keeps hf' hl'.preserves.toKeeps hsub⟩
  · rintro found' _ ⟨k', rfl, ⟨hl, hf'⟩, hcovers, hkept⟩
    exact ⟨k', rfl, hl, hf', hcovers, hkept⟩

/-- A visit adds what a process contributes to the saturated steps of the root. -/
theorem ends_saturate {seen : ProcessSet} (hk : Later step answered I k₀ k) (htotal : k.1.Total defs)
    (hf : Found step k.1 (answered k.2.2) root found seen) (hx : (answered k.2.2).Reaches root x) :
    Ends (saturate limit inner found x) k.toPair
      (fun a s => ∃ (k' : Generator.State (Saturation × σ)) (ts : Transitions), k'.toPair = s ∧
        Later step answered I k₀ k' ∧ (answered k.2.2).Kept (answered k'.2.2) ∧ (answered k'.2.2)[x]? = some ts ∧
        a.1 = silentTargets ts ∧ Found step k'.1 (answered k'.2.2) root a.2 (seen.insert x))
      fun fault s => Fails step answered excused I limit k₀ root fault s := by
  unfold saturate
  rw [ends_bind]
  refine (ends_innerAnswer h hk.invariant htotal x).mono ?_ fun _ _ hs => fails_of_inner h hk hx hs
  rintro ts _ ⟨k₁, rfl, hk₁, hts⟩
  have hkeeps := hk₁.preserves.toKeeps
  have hsteps (t : Transition) (ht : t ∈ ts.toList.filter fun t => !t.action.isSilent) :
      IsSaturated step k₁.1 root t := by
    obtain ⟨ht, hvisible⟩ := List.mem_filter.1 ht
    refine .of_reaches hb (h.answers hk₁.invariant.2) (hx.kept hk₁.kept) hts ht fun ha => ?_
    rw [ha] at hvisible
    cases hvisible
  rw [ends_bind]
  refine (ends_addAll h hb hk₁.invariant (htotal.preserves hk₁.preserves)
    (fun t ht => (hf.saturated ht).keeps hkeeps) hsteps).mono ?_ fun _ _ hs => hs.of_later (hk.trans hk₁)
  rintro found' _ ⟨k₂, rfl, hk₂, hf', hcovers, hkept⟩
  rw [ends_pure]
  refine ⟨k₂, ts, rfl, (hk.trans hk₁).trans hk₂, hk₁.kept.trans hk₂.kept, hk₂.kept x ts hts, rfl, hf' _,
    fun hy => ?_⟩
  rcases TreapSet.mem_insert.1 hy with rfl | hy
  · refine ⟨ts, hk₂.kept _ ts hts, fun t ht hvisible => hcovers t (List.mem_filter.2 ⟨ht, ?_⟩)⟩
    cases ha : t.action with
    | silent => exact absurd ha hvisible
    | visible | delay => rfl
  · -- what was found earlier is still there
    obtain ⟨us, hus, hold⟩ := hf.covers hy
    refine ⟨us, hk₂.kept _ us (hk₁.kept _ us hus), fun t ht hvisible => hkept t ?_⟩
    exact (hold t ht hvisible).keeps (fun _ => hf.saturated) hkeeps fun _ ht => ht

/-- The stage answers with saturated steps, unless a fault of the generator below it is excused or a silent closure
exceeds the limit. -/
theorem correct :
    (successors limit inner).Correct defs (Saturated step) (fun n => n.1.known)
      (Excused answered excused limit) (Invariant step I) where
  models hn := h.models hn.2
  answers hn := hn.1.answers
  keeps hn hk hr := ⟨hn.1.keeps hk, h.keeps hn.2 hk hr⟩
  ends {k} id hk htotal := by
    unfold successors
    rw [ends_bind, toPair, ends_notes]
    split
    · rename_i ts hts
      exact ⟨k, rfl, .refl hk, .refl _, hts⟩
    · rename_i hnew
      have hnew : k.2.1.known[id]? = none := Option.eq_none_iff_forall_ne_some.2 hnew
      rw [ends_bind]
      refine (Search.ends_run (w := toPair) (K := fun k' => answered k'.2.2) (I := Later step answered I k)
        (F := fun k' found seen => Found step k'.1 (answered k'.2.2) id found seen)
        ?_ ?_ (.refl hk) ?_ (.start _ _) (Nat.zero_add limit)).mono ?_ fun _ _ hs => hs
      · intro k' found seen x hk' hf hx
        exact ends_saturate h hb hk' (htotal.preserves hk'.preserves) hf hx
      · exact fun k' hk' hex => ⟨k', rfl, hk'.toLeads, .inr (.inr ⟨rfl, id, hex⟩)⟩
      · exact ⟨fun ht => absurd ht TreapSet.not_mem_empty, fun hx => absurd hx TreapSet.not_mem_empty⟩
      · rintro ⟨seen, found⟩ _ ⟨⟨r', n', m'⟩, rfl, hk', hp, hf⟩
        rw [ends_bind, toPair, ends_modifyNotes, ends_pure]
        have hanswers := hf.answers hb (h.answers hk'.invariant.2) hp
        have hsound : Sound step r' { n' with known := n'.known.insert id found } :=
          ⟨hk'.invariant.1.closures, hk'.invariant.1.answers.insert hanswers⟩
        refine ⟨(r', _, m'), rfl, ⟨⟨hsound, hk'.invariant.2⟩, hk'.preserves⟩, ?_, ?_⟩
        · rw [← hk'.known_eq] at hnew ⊢
          exact .insert hnew _
        · rw [Table.getElem?_insert, if_pos rfl]

end Saturation

end ProcessCalculus
