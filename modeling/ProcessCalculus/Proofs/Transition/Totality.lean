import ProcessCalculus.Proofs.Program.GuardednessSearch
import ProcessCalculus.Proofs.Transition.History

/-!
# When expansion succeeds

Whether the transitions of a process are found does not depend on what was asked before, nor on whether that
succeeded: they are found exactly if the process leads, without an action, neither to an undefined name nor to a cycle.
Hence expansion and the search for unguarded names agree, though each follows the program in its own way.

* `Expansion.exists_ok_iff_expandable`: which calls succeed.
* `ExpansionSteps`: any calls one after the other.
* `Expansion.successors_ok_iff`: which calls succeed, which names fail as unguarded, and that nothing fails later if no
  name is unguarded.
-/

namespace ProcessCalculus

open Relation Term

/-- Processes are expanded one after the other, whether this succeeds or not. -/
def ExpansionSteps : Program × Expansion → Program × Expansion → Prop :=
  ReflTransGen fun k k' => ∃ id, k' = after (Expansion.successors id) k

namespace Expansion

variable {defs : String → Term → Prop} {le : Term → Term → Prop} {r : Reading} {e : Expansion} {id : ProcessId}

/-- The transitions of a process are found exactly if it is expandable. -/
theorem exists_ok_iff_expandable (hle : Precongruence le) (hs : Sound defs le r e) (hsettled : Settled r e)
    (hid : id < r.program.size) :
    (∃ ts k', successors id (r.program, e) = .ok ts k') ↔ r.program.Expandable id := by
  have hends : Ends (successors id) (r.program, e) _ _ := ends_successors hle hs
  constructor
  · rintro ⟨ts, k', hok⟩
    obtain ⟨r', e', rfl, ⟨-, hext, -, hkeeps⟩, hts⟩ := hends.of_ok hok
    exact (hext.expandable_iff hs.models.wellFormed hid).1 (hkeeps hsettled id ts hts)
  · intro hexp
    cases hc : successors id (r.program, e) with
    | ok ts k' => exact ⟨ts, k', rfl⟩
    | error fault k' => exact absurd hexp ((hends.of_error hc).2 hid).not_expandable

/-- Where all names are defined, a call for a process that is not expandable reports an unguarded unfolding. -/
theorem exists_error_iff_not_expandable (hle : Precongruence le) (hs : Sound defs le r e) (hsettled : Settled r e)
    (hid : id < r.program.size) (hdef : ∀ x name, r.program.node? x ≠ some (.named name none)) :
    (∃ blamed k', successors id (r.program, e) = .error (.unguardedUnfolding blamed) k') ↔
      ¬ r.program.Expandable id := by
  rw [← exists_ok_iff_expandable hle hs hsettled hid]
  constructor
  · rintro ⟨blamed, k', herror⟩ ⟨ts, k'', hok⟩
    rw [herror] at hok
    cases hok
  · intro hfails
    cases hc : successors id (r.program, e) with
    | ok ts k' => exact absurd ⟨ts, k', hc⟩ hfails
    | error fault k' =>
      cases ((ends_successors hle hs).of_error hc).2 hid with
      | undefined _ hnode => exact absurd hnode (hdef _ _)
      | cycle => exact ⟨_, k', rfl⟩

/-- Calls only add to a program, and keep the invariant. -/
theorem exists_later (hle : Precongruence le) (hs : Sound defs le r e) {k : Program × Expansion}
    (h : ExpansionSteps (r.program, e) k) : ∃ r', r'.program = k.1 ∧ Later defs le r e r' k.2 := by
  induction h with
  | refl => exact ⟨r, rfl, .refl hs⟩
  | @tail k₁ k₂ _ hstep ih =>
    obtain ⟨id, rfl⟩ := hstep
    obtain ⟨r₁, hr₁, hl₁⟩ := ih
    obtain ⟨p₁, e₁⟩ := k₁
    obtain rfl : r₁.program = p₁ := hr₁
    obtain ⟨r₂, hr₂, hl₂⟩ := later_successors hle hl₁.1 id
    exact ⟨r₂, hr₂, hl₁.trans hl₂⟩

/-- If all names are defined and none is unguarded, then after any calls every process is expandable. -/
theorem expandable_of_steps (hs : Sound defs Reordered r e)
    (hdef : ∀ id name, r.program.node? id ≠ some (.named name none))
    (hguard : ∀ name id, r.program.lookup? name = some id → ¬ r.program.Unguarded id) {k : Program × Expansion}
    (h : ExpansionSteps (r.program, e) k) (id : ProcessId) : k.1.Expandable id := by
  obtain ⟨r', hr', hs', hext, -⟩ := exists_later Reordered.precongruence hs h
  rw [← hr']
  have hdef' (x : ProcessId) (name : String) : r'.program.node? x ≠ some (.named name none) := by
    rw [Ne, hext.named_iff]
    exact hdef x name
  -- names are old processes, and these lead where they led before
  have hguard' (name : String) (x : ProcessId) (hl : r'.program.lookup? name = some x) : ¬ r'.program.Unguarded x := by
    rw [hext.lookup?_eq] at hl
    have hx := hs.models.wellFormed.lt_of_mem_named (Program.mem_named.2 ⟨name, hl⟩)
    have hx' := Nat.lt_of_lt_of_le hx hext.size_le
    rw [← Program.not_expandable_iff_unguarded hs'.models.wellFormed.closed hx' hdef',
      hext.expandable_iff hs.models.wellFormed hx,
      Program.not_expandable_iff_unguarded hs.models.wellFormed.closed hx hdef]
    exact hguard name x hl
  obtain ⟨rank, hrank⟩ := hs'.models.toValid.exists_ranked hdef' hguard'
  exact hrank.expandable id

/-- If all names are defined and none is unguarded, all calls succeed, for the processes of the program and for those
that are added by earlier calls. -/
theorem exists_ok_of_steps (hs : Sound defs Reordered r e) (hsettled : Settled r e)
    (hdef : ∀ id name, r.program.node? id ≠ some (.named name none))
    (hguard : ∀ name id, r.program.lookup? name = some id → ¬ r.program.Unguarded id) {k : Program × Expansion}
    (h : ExpansionSteps (r.program, e) k) (hid : id < k.1.size) : ∃ ts k', successors id k = .ok ts k' := by
  have hexp := expandable_of_steps hs hdef hguard h id
  obtain ⟨p', e'⟩ := k
  obtain ⟨r', rfl, hs', -, -, hkeeps⟩ := exists_later Reordered.precongruence hs h
  exact (exists_ok_iff_expandable Reordered.precongruence hs' (hkeeps hsettled) hid).2 hexp

/-- After any calls, successful or not, the transitions of a process of the program are found exactly if unguarded edges
lead from it neither to a name without a definition nor to a cycle. If all names are defined, then the names for which
unguarded recursion is reported are the unguarded ones, and if there are none, all later calls succeed, for the
processes of the program and for those that are added meanwhile. -/
theorem successors_ok_iff {k : Program × Expansion} (hk : ExpansionHistory k) :
    (∀ id, id < k.1.size → ((∃ ts k', successors id k = .ok ts k') ↔
      ¬ ∃ x, ReflTransGen k.1.Unfolds id x ∧
        ((∃ name, k.1.node? x = some (.named name none)) ∨ TransGen k.1.Unfolds x x))) ∧
    (k.1.undefinedNames = [] → ∃ ids, k.1.unguarded = .ok ids ∧
      (∀ name id, k.1.lookup? name = some id →
        (id ∈ ids ↔ ∃ blamed k', successors id k = .error (.unguardedUnfolding blamed) k')) ∧
      (ids = [] → ∀ k', ExpansionSteps k k' → ∀ id, id < k'.1.size → ∃ ts k'', successors id k' = .ok ts k'')) := by
  obtain ⟨p, e⟩ := k
  obtain ⟨r, defs, rfl, hs, hsettled⟩ := hk.exists_settled
  have hw := hs.models.wellFormed
  constructor
  · intro id hid
    rw [exists_ok_iff_expandable Reordered.precongruence hs hsettled hid, Program.expandable_iff]
  · intro hnone
    have hdef := hw.undefinedNames_eq_nil_iff.1 hnone
    have hnamed (id : ProcessId) (hid : id ∈ r.program.named) : id < r.program.size := hw.lt_of_mem_named hid
    obtain ⟨ids, hok, -, hids⟩ := Guardedness.exists_unguarded_eq hw.closed hnamed
    have hiff (name : String) (id : ProcessId) (hl : r.program.lookup? name = some id) :
        id ∈ ids ↔ r.program.Unguarded id := by
      rw [hids, Program.mem_named]
      exact and_iff_right ⟨name, hl⟩
    refine ⟨ids, hok, fun name id hl => ?_, fun hnil k' hsteps id hid => ?_⟩
    · have hid := hnamed id (Program.mem_named.2 ⟨name, hl⟩)
      rw [hiff name id hl, exists_error_iff_not_expandable Reordered.precongruence hs hsettled hid hdef,
        Program.not_expandable_iff_unguarded hw.closed hid hdef]
    · have hguard (name : String) (x : ProcessId) (hl : r.program.lookup? name = some x) : ¬ r.program.Unguarded x := by
        rw [← hiff name x hl, hnil]
        exact List.not_mem_nil
      exact exists_ok_of_steps hs hsettled hdef hguard hsteps hid

/-- The definitions `P = a.P + (P \ ∅)` and `Q = 1.P`. -/
private def looseSummand : Program :=
  let p := (Program.mention ∅ "P").2
  let p := (p.add (.restrict 0 ∅)).2
  let p := (p.add (.act (.visible "a" .input) 0)).2
  let p := (p.add (.sum 2 1)).2
  let p := after (Program.define "P" 3) p
  let p := (p.add (.delay 1 0)).2
  after (Program.define "Q" 4) p

private theorem built_looseSummand : Built looseSummand :=
  ((((((ReflTransGen.refl.tail (.mention ∅ "P")).tail (.add rfl (by decide))).tail (.add rfl (by decide))).tail
    (.add rfl (by decide))).tail (.define _ "P" 3)).tail (.add rfl (by decide))).tail (.define _ "Q" 4)

/-- After a failed call for `P`, a second one fails as well, while the transitions of `Q` are found. -/
theorem successors_ok_iff_looseSummand :
    let k := after (successors 0) (looseSummand, ∅)
    ExpansionHistory k ∧ k.1.undefinedNames = [] ∧ k.1.unguarded = .ok [0] ∧
      (∃ blamed k', successors 0 k = .error (.unguardedUnfolding blamed) k') ∧
      ∃ ts k', successors 5 k = .ok ts k' := by
  intro k
  have hk : ExpansionHistory k := (ExpansionHistory.fresh (.of_built built_looseSummand)).successors 0
  have hnone : k.1.undefinedNames = [] := by decide +kernel
  obtain ⟨hiff, hnames⟩ := successors_ok_iff hk
  obtain ⟨ids, hok, herror, -⟩ := hnames hnone
  have hids : ids = [0] := by
    have heval : k.1.unguarded.toOption = some [0] := by decide +kernel
    rw [hok] at heval
    exact Option.some.inj heval
  subst hids
  have hP : k.1.lookup? "P" = some 0 := by decide +kernel
  have hQ : k.1.node? 5 = some (.named "Q" (some 4)) := by decide +kernel
  have hdelay : k.1.node? 4 = some (.delay 1 0) := by decide +kernel
  -- the way from `Q` ends at the delay
  have hexp : k.1.Expandable 5 := by
    refine Program.expandable_of_edges (by simp [hQ]) fun c he => ?_
    obtain ⟨node, hnode, hc⟩ := he
    cases hQ.symm.trans hnode
    rw [List.mem_singleton.1 hc]
    refine Program.expandable_of_edges (by simp [hdelay]) fun d he => ?_
    obtain ⟨node, hnode, hd⟩ := he
    cases hdelay.symm.trans hnode
    cases hd
  exact ⟨hk, hnone, hok, (herror "P" 0 hP).1 (by simp), (hiff 5 (by decide +kernel)).2 (Program.expandable_iff.1 hexp)⟩

end Expansion

end ProcessCalculus
