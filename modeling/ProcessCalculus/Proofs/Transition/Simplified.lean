import ProcessCalculus.Transition.Simplified
import ProcessCalculus.Proofs.Simplification.Forms
import ProcessCalculus.Proofs.Transition.Generator

/-!
# Simplified targets

A stage that simplifies targets keeps a generator correct: a target may be replaced by a form of it, and what
simplification does to nodes between two questions the generator survives.

* `Simplified.Sound`: forms are forms, and the answers given so far are answers.
* `Simplified.correct`: the obligations of a generator, from those of the inner one.
-/

namespace ProcessCalculus

open Generator.State Term

namespace Simplified

/-- What holds of the notes of the stage in a reading. -/
structure Sound (defs : String → Term → Prop) (step : Term → Action → Term → Prop) (r : Reading)
    (n : Simplified) : Prop where
  simplification : Simplification.Sound defs r n.simplification
  answers : n.known.Answer step Simplifies r

variable {σ : Type} {defs : String → Term → Prop} {step : Term → Action → Term → Prop}
  {r r' : Reading} {n : Simplified}

theorem Sound.keeps (h : Sound defs step r n) (hk : r.Keeps r') (hr : r'.Models Simplifies defs) :
    Sound defs step r' n where
  simplification := h.simplification.keeps hk hr
  answers := h.answers.keeps hk

/-- The second transition is the first one with a form of its target. -/
private structure IsSimplified (r : Reading) (t t' : Transition) : Prop where
  action_eq : t'.action = t.action
  isForm : Simplification.IsForm r t.target t'.target

private theorem ends_simplify (h : Sound defs step r n) {t : Transition} (ht : t.target < r.program.size) :
    Ends (simplify t) (r.program, n)
      (fun t' s => ∃ r' n', s = (r'.program, n') ∧ Sound defs step r' n' ∧ r.Preserves r' ∧ n'.known = n.known ∧
        IsSimplified r' t t')
      fun _ _ => False := by
  unfold simplify
  rw [ends_bind, ends_on]
  refine (Simplification.ends_simplify h.simplification ht).mono ?_ fun _ _ h => h
  rintro form _ ⟨r', s', rfl, hs', hrw, hform⟩
  exact ⟨r', _, rfl, ⟨hs', h.answers.keeps hrw.toKeeps⟩, hrw.toPreserves, rfl, rfl, hform⟩

private theorem ends_simplifyAll (h : Sound defs step r n) {ts : List Transition}
    (hts : ∀ t ∈ ts, t.target < r.program.size) :
    Ends (ts.mapM simplify) (r.program, n)
      (fun ts' s => ∃ r' n', s = (r'.program, n') ∧ Sound defs step r' n' ∧ r.Preserves r' ∧ n'.known = n.known ∧
        List.Forall₂ (IsSimplified r') ts ts')
      fun _ _ => False := by
  refine (Ends.mapM (w := fun k : Reading × Simplified => (k.1.program, k.2))
    (I := fun k => Sound defs step k.1 k.2 ∧ r.Preserves k.1 ∧ k.2.known = n.known)
    (R := fun k => IsSimplified k.1) (fun t ht k hk => ?_) (k := (r, n)) ⟨h, .refl r, rfl⟩).mono ?_
    fun _ _ h => h
  · obtain ⟨hs, hp, hknown⟩ := hk
    refine (ends_simplify hs (Nat.lt_of_lt_of_le (hts t ht) hp.size_le)).mono ?_ fun _ _ h => h
    rintro t' _ ⟨r', n', rfl, hs', hp', hknown', hform⟩
    exact ⟨(r', n'), rfl, ⟨hs', hp.trans hp', hknown'.trans hknown⟩, hform,
      fun _ _ h => ⟨h.action_eq, h.isForm.keeps hp'.toKeeps⟩⟩
  · rintro ts' _ ⟨⟨r', n'⟩, rfl, ⟨hs', hp, hknown⟩, hforms, -⟩
    exact ⟨r', n', rfl, hs', hp, hknown, hforms⟩

/-- An answer stays one when targets are simplified. -/
private theorem answers_simplified {id : ProcessId} {ts : Transitions} {ts' : List Transition}
    (h : Answers step Simplifies r id ts) (hforms : List.Forall₂ (IsSimplified r) ts.toList ts') :
    Answers step Simplifies r id (TreapSet.ofList ts') where
  lt := h.lt
  target_lt ht := by
    obtain ⟨t, -, hf⟩ := (forall₂_exists hforms).2 _ (TreapSet.mem_ofList.1 ht)
    exact hf.isForm.form_lt
  enumerates := by
    refine h.enumerates.of_targets Simplifies.precongruence ?_ ?_
    · rintro a v ⟨t, ht, ha, rfl⟩
      obtain ⟨t', ht', hf⟩ := (forall₂_exists hforms).1 t ht
      exact ⟨_, ⟨t', TreapSet.mem_ofList.2 ht', hf.action_eq.trans ha, rfl⟩, hf.isForm.simplifies⟩
    · rintro a v ⟨t', ht', ha, rfl⟩
      obtain ⟨t, ht, hf⟩ := (forall₂_exists hforms).2 t' (TreapSet.mem_ofList.1 ht')
      exact ⟨_, ⟨t, ht, hf.action_eq.symm.trans ha, rfl⟩, hf.isForm.simplifies⟩

/-- The stage is as correct as the generator below it, and answers where that one does. -/
theorem correct {inner : Generator σ} {answered : σ → KnownTransitions} {excused : Fault → σ → Prop}
    {I : Reading → σ → Prop} (h : inner.Correct defs step answered excused I) :
    (successors inner).Correct defs step (fun n => n.1.known) (fun fault n => excused fault n.2)
      fun r n => Sound defs step r n.1 ∧ I r n.2 where
  models hn := h.models hn.2
  answers hn := hn.1.answers
  keeps hn hk hr := ⟨hn.1.keeps hk hr, h.keeps hn.2 hk hr⟩
  ends := by
    rintro ⟨r, n, m⟩ id ⟨hn, hm⟩ htotal
    unfold successors
    rw [toPair, ends_bind, ends_notes]
    split
    · rename_i ts hts
      exact ⟨(r, n, m), rfl, .refl ⟨hn, hm⟩, .refl _, hts⟩
    · rename_i hnew
      have hnew : n.known[id]? = none := Option.eq_none_iff_forall_ne_some.2 hnew
      rw [ends_bind, ends_inner]
      refine (h.ends (k := (r, m)) id hm htotal).mono ?_ ?_
      · rintro ts _ ⟨⟨r₁, m₁⟩, rfl, ⟨hm₁, hp₁⟩, -, hts⟩
        have hanswer := h.answers hm₁ hts
        rw [ends_bind, ends_outer]
        refine (ends_simplifyAll (hn.keeps hp₁.toKeeps (h.models hm₁)) fun t ht => hanswer.target_lt ht).mono ?_
          fun _ _ h => h.elim
        rintro ts' _ ⟨r₂, n₂, rfl, hn₂, hp₂, hknown, hforms⟩
        rw [ends_bind, ends_modifyNotes, ends_pure]
        have hanswer₂ := answers_simplified (hanswer.keeps hp₂.toKeeps) hforms
        have hm₂ := h.keeps hm₁ hp₂.toKeeps hn₂.simplification.models
        have hsound : Sound defs step r₂ { n₂ with known := n₂.known.insert id (TreapSet.ofList ts') } :=
          ⟨hn₂.simplification, hn₂.answers.insert hanswer₂⟩
        refine ⟨(r₂, _, m₁), rfl, ⟨⟨hsound, hm₂⟩, hp₁.trans hp₂⟩, ?_, ?_⟩
        · rw [← hknown] at hnew
          exact hknown ▸ .insert hnew _
        · rw [Table.getElem?_insert, if_pos rfl]
      · rintro _ _ ⟨⟨r₁, m₁⟩, rfl, ⟨hm₁, hp₁⟩, hwhy⟩
        exact ⟨(r₁, n, m₁), rfl, ⟨⟨hn.keeps hp₁.toKeeps (h.models hm₁), hm₁⟩, hp₁⟩, hwhy⟩

end Simplified

end ProcessCalculus
