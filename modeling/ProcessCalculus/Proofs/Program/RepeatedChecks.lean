import ProcessCalculus.Proofs.Program.GuardednessSearch

/-!
# Repeated checks

The unguarded names of a program can be checked again and again with the same marks. If the first check succeeds, all
later ones give the same answer. If it fails, no later one gives the same answer: the reference that leads to no node
has a mark by then, so no later search fails at it.

* `Guardedness.check_eq_fresh_iff`: when a check with the marks of earlier ones answers like a fresh one.
* `Guardedness.check_danglingOperand`: a check that succeeds after one that failed.
-/

namespace ProcessCalculus

namespace Guardedness

variable {p : Program} {marks : Marks} {x : ProcessId}

/-- The marks after some checks of a program, whether these succeeded or failed. -/
def marksAfter (p : Program) : Nat → Marks
  | 0 => ∅
  | n + 1 => after (check p) (marksAfter p n)

theorem unguarded_eq_answer (p : Program) : p.unguarded = answer (check p) ∅ := by
  unfold Program.unguarded answer
  cases check p ∅ <;> rfl

/-- A check only adds to the marks. -/
theorem kept_check (p : Program) (marks : Marks) : marks.Kept (after (check p) marks) :=
  Ends.after (P := fun marks' => marks.Kept marks') <|
    (ends_unguardedAmong p.named).mono (fun _ _ h => h.kept) fun _ _ ⟨_, _, h⟩ => h.kept

/-- A check does not fail at a reference that has a mark. -/
theorem check_ne_missing (h : marks.Knows x) : answer (check p) marks ≠ .error (.missingProcess x) := by
  intro hfail
  obtain ⟨id, -, hmissed⟩ := (ends_unguardedAmong p.named).of_error (answer_eq_error_iff.1 hfail)
  obtain ⟨y, hfault, -, -, hnone, -⟩ := hmissed.exists_missing
  obtain rfl : x = y := by
    cases hfault
    rfl
  obtain ⟨mark, hmark⟩ := h
  simp [hmark] at hnone

/-- Where all processes of a list are marked, the answer is read off the marks. -/
theorem unguardedAmong_of_knows {ids : List ProcessId} (h : ∀ id ∈ ids, marks.Knows id) :
    unguardedAmong p ids marks = .ok (ids.filter marks.condemns) marks := by
  induction ids with
  | nil => rfl
  | cons id ids ih =>
    have hvisit : visit p p.depthBound id marks = .ok () marks := by
      obtain ⟨mark, hmark⟩ := h id List.mem_cons_self
      have hc : marks.contains id = true := by
        rw [Std.TreeMap.contains_eq_isSome_getElem?, hmark]
        rfl
      rw [Program.depthBound, visit, get_bind_apply, if_pos hc]
      rfl
    have hone : isUnguarded p id marks = .ok (marks.condemns id) marks := by
      rw [isUnguarded, bind_apply_of_ok hvisit]
      rfl
    have hrest := ih fun x hx => h x (List.mem_cons_of_mem _ hx)
    rw [unguardedAmong, bind_apply_of_ok hone, bind_apply_of_ok hrest, List.filter_cons]
    rfl

/-- After a check that succeeds, every check changes nothing and gives the same answer. -/
theorem check_again {ids : List ProcessId} (h : p.unguarded = .ok ids) (n : Nat) :
    check p (marksAfter p (n + 1)) = .ok ids (marksAfter p 1) := by
  have hfirst : check p ∅ = .ok ids (marksAfter p 1) := answer_eq_ok_iff.1 (unguarded_eq_answer p ▸ h)
  have hanswered := (ends_unguardedAmong p.named).of_ok hfirst
  have hagain : check p (marksAfter p 1) = .ok ids (marksAfter p 1) := by
    rw [hanswered.answer_eq]
    exact unguardedAmong_of_knows fun _ hid => hanswered.knows hid
  induction n with
  | zero => exact hagain
  | succ n ih =>
    rw [marksAfter, after, ih]
    exact hagain

theorem kept_marksAfter (p : Program) (n : Nat) : (marksAfter p 1).Kept (marksAfter p (n + 1)) := by
  induction n with
  | zero => exact .refl _
  | succ n ih => exact ih.trans (kept_check p _)

/-- A check with the marks of earlier ones answers like a fresh one exactly if there were no earlier ones, or the fresh
one succeeds. -/
theorem check_eq_fresh_iff (p : Program) (n : Nat) :
    answer (check p) (marksAfter p n) = p.unguarded ↔ n = 0 ∨ ∃ ids, p.unguarded = .ok ids := by
  cases n with
  | zero => exact ⟨fun _ => .inl rfl, fun _ => (unguarded_eq_answer p).symm⟩
  | succ n =>
    cases hfresh : p.unguarded with
    | ok ids =>
      refine ⟨fun _ => .inr ⟨ids, rfl⟩, fun _ => ?_⟩
      rw [answer, check_again hfresh n]
    | error fault =>
      rw [unguarded_eq_answer, answer_eq_error_iff] at hfresh
      obtain ⟨id, -, hmissed⟩ := (ends_unguardedAmong p.named).of_error hfresh
      obtain ⟨x, rfl, -, -, -, hknows⟩ := hmissed.exists_missing
      constructor
      · intro hsame
        exact absurd hsame (check_ne_missing (hknows.kept (kept_marksAfter p n)))
      · rintro (hn | ⟨ids, hids⟩)
        · exact absurd hn (Nat.succ_ne_zero n)
        · cases hids

/-- The definition `P = X \ {}`, where the operand `X` of the restriction is not there. -/
def danglingOperand : Program :=
  after (Program.define "P" 0) (Program.add ∅ (.restrict 7 ∅)).2

/-- The first check fails at the operand that is not there. The second check succeeds, since it stops at the marks that
the first one left. -/
theorem check_danglingOperand :
    danglingOperand.unguarded = .error (.missingProcess 7) ∧
      answer (check danglingOperand) (marksAfter danglingOperand 1) = .ok [] := by
  have hfresh : (match danglingOperand.unguarded with | .error e => some e | .ok _ => none) =
      some (.missingProcess 7) := by decide +kernel
  have hsecond : (answer (check danglingOperand) (marksAfter danglingOperand 1)).toOption = some [] := by
    decide +kernel
  constructor
  · cases h : danglingOperand.unguarded with
    | ok ids =>
      rw [h] at hfresh
      cases hfresh
    | error e =>
      rw [h] at hfresh
      rw [Option.some.inj hfresh]
  · cases h : answer (check danglingOperand) (marksAfter danglingOperand 1) with
    | ok ids =>
      rw [h] at hsecond
      rw [Option.some.inj hsecond]
    | error e =>
      rw [h] at hsecond
      cases hsecond

end Guardedness

end ProcessCalculus
