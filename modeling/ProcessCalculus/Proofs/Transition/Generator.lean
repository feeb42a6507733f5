import ProcessCalculus.Proofs.Transition.Expansion

/-!
# Correct generators

What a generator owes to the stages above it, whatever these do to the program between two questions: its answers
are right and are remembered, and it answers for every process of the program.

* `Generator.Correct`: the obligations, with an invariant of readings and notes.
* `Expansion.correct`, `Expansion.correct_unless_cyclic`: expansion meets them when definitions are guarded, and in any
  case if faults are excused that blame a cycle without an action.
-/

namespace ProcessCalculus

open Term

variable {σ : Type}

/-- A reading of the program, with the notes of a generator. -/
abbrev Generator.State (σ : Type) := Reading × σ

namespace Generator.State

/-- What the generator works on. -/
def toPair (k : State σ) : Program × σ :=
  (k.1.program, k.2)

/-- From one state to a later one the invariant is restored, and what is known of names stays. -/
structure Leads (I : Reading → σ → Prop) (k k' : State σ) : Prop where
  invariant : I k'.1 k'.2
  preserves : k.1.Preserves k'.1

theorem Leads.refl {I : Reading → σ → Prop} {k : State σ} (h : I k.1 k.2) : Leads I k k :=
  ⟨h, .refl _⟩

theorem Leads.trans {I : Reading → σ → Prop} {k k' k'' : State σ} (h : Leads I k k') (h' : Leads I k' k'') :
    Leads I k k'' :=
  ⟨h'.invariant, h.preserves.trans h'.preserves⟩

end Generator.State

open Generator.State

/-- A generator that answers with the steps that `step` says, and remembers its answers as `answered`. Its invariant
survives what others do to nodes. It answers for every process, unless with its notes the fault is `excused`. -/
structure Generator.Correct (defs : String → Term → Prop) (step : Term → Action → Term → Prop)
    (generator : Generator σ) (answered : σ → KnownTransitions) (excused : Fault → σ → Prop)
    (I : Reading → σ → Prop) : Prop where
  models {r : Reading} {n : σ} : I r n → r.Models Simplifies defs
  answers {r : Reading} {n : σ} : I r n → (answered n).Answer step Simplifies r
  keeps {r r' : Reading} {n : σ} : I r n → r.Keeps r' → r'.Models Simplifies defs → I r' n
  ends {k : State σ} (id : ProcessId) : I k.1 k.2 → k.1.Total defs →
    Ends (generator id) k.toPair
      (fun ts t => ∃ k' : State σ, k'.toPair = t ∧ Leads I k k' ∧ (answered k.2).Kept (answered k'.2) ∧
        (answered k'.2)[id]? = some ts)
      fun fault t => ∃ k' : State σ, k'.toPair = t ∧ Leads I k k' ∧ (k.1.program.size ≤ id ∨ excused fault k'.2)

/-- More faults may be excused. -/
theorem Generator.Correct.mono {defs : String → Term → Prop} {step : Term → Action → Term → Prop}
    {generator : Generator σ} {answered : σ → KnownTransitions} {excused excused' : Fault → σ → Prop}
    {I : Reading → σ → Prop} (h : generator.Correct defs step answered excused I)
    (hex : ∀ fault n, excused fault n → excused' fault n) : generator.Correct defs step answered excused' I where
  models := h.models
  answers := h.answers
  keeps := h.keeps
  ends id hk htotal := by
    refine (h.ends id hk htotal).mono (fun _ _ hts => hts) ?_
    rintro fault _ ⟨k', rfl, hleads, hwhy⟩
    exact ⟨k', rfl, hleads, hwhy.imp_right (hex fault k'.2)⟩

namespace Expansion

variable {defs : String → Term → Prop}

theorem Sound.keeps {le : Term → Term → Prop} {r r' : Reading} {e : Expansion} (h : Sound defs le r e)
    (hk : r.Keeps r') (hr : r'.Models le defs) : Sound defs le r' e where
  models := hr
  sharing := h.sharing.keeps hk
  answers := h.answers.keeps hk

/-- Expansion answers for every process of the program, unless it blames what blocks the process. -/
theorem correct_of_blocks {blame : Fault → Prop}
    (hblame : ∀ {r : Reading} {id : ProcessId} {fault : Fault}, r.Models Simplifies defs → r.Total defs →
      id < r.program.size → r.program.Blocks id fault → blame fault) :
    Generator.Correct defs (Step defs) successors known (fun fault _ => blame fault) (Sound defs Simplifies) where
  models h := h.models
  answers h := h.answers
  keeps h hk hr := h.keeps hk hr
  ends := by
    rintro ⟨r, e⟩ id h htotal
    refine (ends_successors Simplifies.precongruence h).mono ?_ ?_
    · rintro ts _ ⟨r', e', rfl, ⟨hs', hext, hkept, -⟩, hts⟩
      exact ⟨(r', e'), rfl, ⟨hs', hext.toPreserves⟩, hkept, hts⟩
    · rintro fault _ ⟨⟨r', e', rfl, hs', hext, -⟩, hblocks⟩
      refine ⟨(r', e'), rfl, ⟨hs', hext.toPreserves⟩, ?_⟩
      rcases Nat.lt_or_ge id r.program.size with hid | hid
      · exact .inr (hblame h.models htotal hid (hblocks hid))
      · exact .inl hid

/-- If there is a measure of names that all definitions lower, expansion answers for every process. -/
theorem correct {names : String → Nat} (hnames : ∀ name t, defs name t → t.unfolding names < names name) :
    Generator.Correct defs (Step defs) successors known (fun _ _ => False) (Sound defs Simplifies) := by
  apply correct_of_blocks
  intro r id fault hr htotal hid hblocks
  -- the processes have ranks, so nothing blocks them
  obtain ⟨rank, hrank⟩ := hr.exists_ranked Simplifies.precongruence htotal hnames
  exact hblocks.not_expandable (hrank.expandable _)

/-- Whatever the definitions are, if all names have one then only a cycle without an action blocks a process. -/
theorem correct_unless_cyclic :
    Generator.Correct defs (Step defs) successors known (fun fault _ => ∃ name, fault = .unguardedUnfolding name)
      (Sound defs Simplifies) := by
  apply correct_of_blocks
  intro r id fault hr htotal _ hblocks
  cases hblocks with
  | undefined _ hnode => exact absurd hnode (htotal.ne_undefined hr)
  | cycle => exact ⟨_, rfl⟩

end Expansion

end ProcessCalculus
