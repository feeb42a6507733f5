import ProcessCalculus.Proofs.Sharing.History
import ProcessCalculus.Proofs.Transition.Expansion

/-!
# Histories of expansion

Processes of a program are expanded one after the other, with one set of notes. Some of the calls may fail. Whenever
one succeeds, its answer is the set of steps that the rules of the calculus derive.

* `ExpansionHistory`: the programs and notes that come from building, sharing and then expanding.
* `Expansion.successors_iff_step`: answers are sound and complete, and the program grows at its end only.
-/

namespace ProcessCalculus

open Term

/-- A program was built and shared, and then processes of it were expanded, with fresh notes or with the notes of
sharing. It does not matter which calls succeeded. -/
inductive ExpansionHistory : Program × Expansion → Prop
  | fresh {p : Program} {s : Sharing} (h : SharingHistory (p, s)) : ExpansionHistory (p, ∅)
  | shared {p : Program} {s : Sharing} (h : SharingHistory (p, s)) : ExpansionHistory (p, { sharing := s })
  | successors {k : Program × Expansion} (h : ExpansionHistory k) (id : ProcessId) :
      ExpansionHistory (after (Expansion.successors id) k)

namespace Expansion

variable {defs : String → Term → Prop} {le : Term → Term → Prop} {r : Reading} {e : Expansion}

theorem later_successors (hle : Precongruence le) (hs : Sound defs le r e) (id : ProcessId) :
    ∃ r' : Reading, r'.program = (after (successors id) (r.program, e)).1 ∧
      Later defs le r e r' (after (successors id) (r.program, e)).2 := by
  refine Ends.after (P := fun t : Program × Expansion => ∃ r' : Reading, r'.program = t.1 ∧ Later defs le r e r' t.2)
    ((ends_successors hle hs).mono ?_ ?_)
  · rintro _ _ ⟨r', e', rfl, hl, -⟩
    exact ⟨r', rfl, hl⟩
  · rintro _ _ ⟨⟨r', e', rfl, hl⟩, -⟩
    exact ⟨r', rfl, hl⟩

theorem after_successors (hle : Precongruence le) (hs : Sound defs le r e) (id : ProcessId) :
    ∃ r' : Reading, r'.program = (after (successors id) (r.program, e)).1 ∧ r.Extends r' ∧
      Sound defs le r' (after (successors id) (r.program, e)).2 := by
  obtain ⟨r', hr', hs', hext, -⟩ := later_successors hle hs id
  exact ⟨r', hr', hext, hs'⟩

end Expansion

/-- The invariant of expansion holds after every history, and known transitions are those of expandable processes. -/
theorem ExpansionHistory.exists_settled {k : Program × Expansion} (hk : ExpansionHistory k) :
    ∃ (r : Reading) (defs : String → Term → Prop), r.program = k.1 ∧ Expansion.Sound defs Reordered r k.2 ∧
      Expansion.Settled r k.2 := by
  induction hk with
  | @fresh p s h =>
    obtain ⟨m, defs, hm⟩ := h.exists_shared
    exact ⟨⟨p, m⟩, defs, rfl, .of_sharing hm.models (.empty _), .of_sharing _ _⟩
  | @shared p s h =>
    obtain ⟨m, defs, hm⟩ := h.exists_shared
    exact ⟨⟨p, m⟩, defs, rfl, .of_sharing hm.models hm.sound, .of_sharing _ _⟩
  | @successors k _ id ih =>
    obtain ⟨p, e⟩ := k
    obtain ⟨r, defs, rfl, hs, hsettled⟩ := ih
    obtain ⟨r', hr', hs', -, -, hkeeps⟩ := Expansion.later_successors Reordered.precongruence hs id
    exact ⟨r', defs, hr', hs', hkeeps hsettled⟩

theorem ExpansionHistory.exists_sound {k : Program × Expansion} (hk : ExpansionHistory k) :
    ∃ (r : Reading) (defs : String → Term → Prop), r.program = k.1 ∧ Expansion.Sound defs Reordered r k.2 := by
  obtain ⟨r, defs, hr, hs, -⟩ := hk.exists_settled
  exact ⟨r, defs, hr, hs⟩

namespace Expansion

/-- A set of transitions that answers for a process holds the steps of what the process denotes. -/
theorem exists_iff_step {defs : String → Term → Prop} {r : Reading} {id : ProcessId} {ts : Transitions}
    (hr : r.Models Reordered defs) (h : Answers (Step defs) Reordered r id ts) :
    ∃ t, r.program.Denotes id t ∧ (∀ x ∈ ts, ∃ u, r.program.Denotes x.target u) ∧
      ∀ a u, (∃ x ∈ ts, x.action = a ∧ ∃ v, r.program.Denotes x.target v ∧ Reordered v u) ↔
        ∃ v, Step r.program.Defines t a v ∧ Reordered v u := by
  have hb := hr.isBisimulation Reordered.precongruence
  obtain ⟨t, ht, hle⟩ := hr.denotes Reordered.precongruence h.lt
  refine ⟨t, ht, fun x hx => ?_, fun a u => ⟨?_, ?_⟩⟩
  · obtain ⟨u, hu, -⟩ := hr.denotes Reordered.precongruence (h.target_lt hx)
    exact ⟨u, hu⟩
  · rintro ⟨x, hx, rfl, v, hv, hvu⟩
    obtain ⟨w, hw, hwx⟩ := h.enumerates.sound ⟨x, hx, rfl, rfl⟩
    obtain ⟨w', hw', hww⟩ := hb.forth hle hw
    obtain ⟨v', hv', hxv⟩ := hr.denotes Reordered.precongruence (h.target_lt hx)
    obtain rfl := hv.unique hv'
    have hwv : Reordered w' v := (hww.symm.trans hwx).trans hxv
    exact ⟨w', hw', hwv.trans hvu⟩
  · rintro ⟨v, hv, hvu⟩
    obtain ⟨w, hw, hwv⟩ := hb.back hle hv
    obtain ⟨_, ⟨x, hx, rfl, rfl⟩, hwx⟩ := h.enumerates.complete hw
    obtain ⟨v', hv', hxv⟩ := hr.denotes Reordered.precongruence (h.target_lt hx)
    have hvw : Reordered v' w := hxv.symm.trans hwx.symm
    exact ⟨x, hx, rfl, v', hv', (hvw.trans hwv).trans hvu⟩

/-- After any history, expanding a process leaves all nodes as they are, and adds new ones at the end. If it succeeds,
each transition of the answer is a step of the term that the process denotes, by the rules of the calculus, and
each of these steps is in the answer, where terms are compared up to the order of operands. -/
theorem successors_iff_step {k : Program × Expansion} (hk : ExpansionHistory k) (id : ProcessId) :
    (k.1.size ≤ (after (successors id) k).1.size ∧
      ∀ x, x < k.1.size → (after (successors id) k).1.node? x = k.1.node? x) ∧
    ∀ ts k', successors id k = .ok ts k' →
      ∃ t, k'.1.Denotes id t ∧ (∀ x ∈ ts, ∃ u, k'.1.Denotes x.target u) ∧
        ∀ a u, (∃ x ∈ ts, x.action = a ∧ ∃ v, k'.1.Denotes x.target v ∧ Reordered v u) ↔
          ∃ v, Step k'.1.Defines t a v ∧ Reordered v u := by
  obtain ⟨p, e⟩ := k
  obtain ⟨r, defs, rfl, hs⟩ := hk.exists_sound
  constructor
  · obtain ⟨r', hr', hext, -⟩ := after_successors Reordered.precongruence hs id
    rw [← hr']
    exact ⟨hext.size_le, fun x hx => hext.node?_eq hx⟩
  · intro ts k' hok
    obtain ⟨r', e', rfl, ⟨hs', -⟩, hts⟩ := (ends_successors Reordered.precongruence hs).of_ok hok
    exact exists_iff_step hs'.models (hs'.answers hts)

/-- The term `a.0 | 'a.0`. -/
private def handshake : Program :=
  let p := (Program.add ∅ .null).2
  let p := (p.add (.act (.visible "a" .input) 0)).2
  let p := (p.add (.act (.visible "a" .output) 0)).2
  (p.add (.parallel 1 2)).2

private theorem built_handshake : Built handshake :=
  (((Relation.ReflTransGen.refl.tail (.add rfl (by decide))).tail (.add rfl (by decide))).tail
    (.add rfl (by decide))).tail (.add rfl (by decide))

/-- The two sides of the term can synchronise, which leaves `0 | 0`. -/
theorem successors_handshake :
    ExpansionHistory (handshake, ∅) ∧ ∃ ts k', successors 3 (handshake, ∅) = .ok ts k' ∧
      ∃ x ∈ ts, x.action = .silent ∧ ∃ v, k'.1.Denotes x.target v ∧ Reordered v (.parallel .null .null) := by
  have hk : ExpansionHistory (handshake, ∅) := .fresh (.of_built built_handshake)
  have hok : (match successors 3 (handshake, ∅) with | .ok _ _ => true | .error _ _ => false) = true := by
    decide +kernel
  cases h : successors 3 (handshake, ∅) with
  | error e t =>
    rw [h] at hok
    cases hok
  | ok ts k' =>
    obtain ⟨⟨-, hnode⟩, hsteps⟩ := successors_iff_step hk 3
    have hafter : after (successors 3) (handshake, ∅) = k' := by rw [after, h]
    rw [hafter] at hnode
    have hnull : k'.1.Denotes 0 .null := .null (hnode 0 (by decide))
    have hdenotes : k'.1.Denotes 3 _ :=
      .parallel (hnode 3 (by decide)) (.act (hnode 1 (by decide)) hnull) (.act (hnode 2 (by decide)) hnull)
    obtain ⟨t, ht, -, hiff⟩ := hsteps ts k' h
    obtain rfl := ht.unique hdenotes
    refine ⟨hk, ts, k', rfl, ?_⟩
    exact (hiff .silent _).2 ⟨_, .handshake (p := .input) (.act _ _) (.act _ _), .refl _⟩

end Expansion

end ProcessCalculus
