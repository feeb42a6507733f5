import ProcessCalculus.Proofs.Program.PassLoops
import ProcessCalculus.Proofs.Program.Walks
import ProcessCalculus.Proofs.Transition.Additions
import ProcessCalculus.Proofs.Transition.Steady

/-!
# Expansion by loops

Expansion is a walk, too, in which a process waits for its components. When these are expanded, the program has grown
and the components are found once more. They are the same as before, since nodes stay what they are, and the process
has no transitions yet, since nothing that is being expanded is entered again.

The operands of nested sums are found by a loop of its own, over a list of processes that are pending.

* `Expansion.walk`, `Expansion.exists_run_eq`: expansion as a walk, which the loop makes as the recursion does.
* `Program.gather`, `Program.exists_gather_eq`: the operands of nested sums.
* `Program.Walkable.exists_loops`: where the walks over a program come to their ends, the loops do so as well.
-/

namespace ProcessCalculus

open Relation

/-! ### Operands -/

namespace Program

variable {p q : Program} {id : ProcessId} {components operands : List ProcessId}

/-- The operands of nested sums among the pending processes, in at most `steps` steps. -/
def gather (p : Program) : (steps : Nat) → (pending found : List ProcessId) → Except Fault (List ProcessId)
  | _, [], found => .ok found
  | 0, _ :: _, _ => .error .searchExhausted
  | steps + 1, id :: pending, found => do
    match ← p.node id with
    | .sum l r => p.gather steps (l :: r :: pending) found
    | _ => p.gather steps pending (found ++ [id])

private theorem gather_of_sum {left right : ProcessId} (hnode : p.node? id = some (.sum left right)) (steps : Nat)
    (pending found : List ProcessId) :
    p.gather (steps + 1) (id :: pending) found = p.gather steps (left :: right :: pending) found := by
  rw [gather, Program.node, hnode]
  rfl

private theorem gather_of_not_sum {node : Node ProcessId} (hnode : p.node? id = some node)
    (hsum : ∀ left right, node ≠ .sum left right) (steps : Nat) (pending found : List ProcessId) :
    p.gather (steps + 1) (id :: pending) found = p.gather steps pending (found ++ [id]) := by
  rw [gather, Program.node, hnode]
  cases node with
  | sum left right => exact absurd rfl (hsum left right)
  | _ => rfl

/-- The operands are found, and the loop goes on with what was pending. -/
private theorem exists_gather {depth : Nat} (h : p.operands depth id = .ok operands) :
    ∃ n, ∀ more pending found,
      p.gather (n + more) (id :: pending) found = p.gather more pending (found ++ operands) := by
  induction depth generalizing id operands with
  | zero => cases h
  | succ depth ih =>
    rcases operands_cases h with ⟨left, right, ls, rs, hnode, hl, hr, rfl⟩ | ⟨node, hnode, hsum, rfl⟩
    · obtain ⟨n, hn⟩ := ih hl
      obtain ⟨n', hn'⟩ := ih hr
      refine ⟨n + n' + 1, fun more pending found => ?_⟩
      rw [Nat.add_right_comm, gather_of_sum hnode, Nat.add_assoc, hn, hn', List.append_assoc]
    · refine ⟨1, fun more pending found => ?_⟩
      rw [Nat.add_comm, gather_of_not_sum hnode hsum]

/-- A reference that leads to no node ends the loop as it ends the recursion. -/
private theorem exists_gather_error {depth : Nat} {fault : Fault} (h : p.operands depth id = .error fault)
    (hfault : fault ≠ .searchExhausted) :
    ∃ n, ∀ more pending found, p.gather (n + more) (id :: pending) found = .error fault := by
  induction depth generalizing id with
  | zero =>
    cases h
    exact absurd rfl hfault
  | succ depth ih =>
    cases hnode : p.node? id with
    | none =>
      rw [operands_of_none hnode] at h
      cases h
      refine ⟨1, fun more pending found => ?_⟩
      rw [Nat.add_comm, gather, Program.node, hnode]
      rfl
    | some node =>
      by_cases hsum : ∃ left right, node = .sum left right
      · obtain ⟨left, right, rfl⟩ := hsum
        rw [operands_of_sum hnode] at h
        cases hl : p.operands depth left with
        | error e =>
          rw [hl] at h
          cases h
          obtain ⟨n, hn⟩ := ih hl
          refine ⟨n + 1, fun more pending found => ?_⟩
          rw [Nat.add_right_comm, gather_of_sum hnode, hn]
        | ok ls =>
          obtain ⟨n, hn⟩ := exists_gather hl
          cases hr : p.operands depth right with
          | error e =>
            rw [hl, hr] at h
            cases h
            obtain ⟨n', hn'⟩ := ih hr
            refine ⟨n + n' + 1, fun more pending found => ?_⟩
            rw [Nat.add_right_comm, gather_of_sum hnode, Nat.add_assoc, hn, hn']
          | ok rs =>
            rw [hl, hr] at h
            cases h
      · rw [operands_of_not_sum hnode fun left right heq => hsum ⟨left, right, heq⟩] at h
        cases h

/-- The loop finds the operands in their order, or fails at the same reference. -/
theorem exists_gather_eq {depth : Nat} (h : p.operands depth id ≠ .error .searchExhausted) :
    ∃ n, ∀ more, p.gather (n + more) [id] [] = p.operands depth id := by
  cases hoperands : p.operands depth id with
  | ok operands =>
    obtain ⟨n, hn⟩ := exists_gather hoperands
    refine ⟨n, fun more => (hn more [] []).trans ?_⟩
    cases more <;> rfl
  | error fault =>
    obtain ⟨n, hn⟩ := exists_gather_error hoperands fun heq => h (heq ▸ hoperands)
    exact ⟨n, fun more => hn more [] []⟩

/-- Where nodes stay what they are, operands that were found are found again. -/
private theorem operands_mono {depth depth' : Nat} (hle : depth ≤ depth')
    (hnodes : ∀ c node, p.node? c = some node → q.node? c = some node) (h : p.operands depth id = .ok operands) :
    q.operands depth' id = .ok operands := by
  induction depth generalizing id operands depth' with
  | zero => cases h
  | succ depth ih =>
    obtain ⟨depth', rfl⟩ := Nat.exists_eq_add_of_lt hle
    rcases operands_cases h with ⟨left, right, ls, rs, hnode, hl, hr, rfl⟩ | ⟨node, hnode, hsum, rfl⟩
    · rw [operands_of_sum (hnodes _ _ hnode), ih (Nat.le_add_right _ _) hl, ih (Nat.le_add_right _ _) hr]
      rfl
    · exact operands_of_not_sum (hnodes _ _ hnode) hsum _

/-- A program that has grown gives a process the components that it had. -/
theorem components_mono (hsize : p.size ≤ q.size)
    (hnodes : ∀ c node, p.node? c = some node → q.node? c = some node) (h : p.components id = .ok components) :
    q.components id = .ok components := by
  cases hnode : p.node? id with
  | none =>
    rw [components_eq_none hnode] at h
    cases h
  | some node =>
    rw [components_eq hnode] at h
    rw [components_eq (hnodes _ _ hnode)]
    cases node with
    | sum left right => exact operands_mono (Nat.succ_le_succ hsize) hnodes h
    | named name body => cases body <;> exact h
    | _ => exact h

end Program

namespace Expansion

variable {k k' : Program × Expansion} {path components : List ProcessId} {id : ProcessId} {node : Node ProcessId}

theorem Interns.node?_eq (h : Interns k k') (hnode : k.1.node? id = some node) : k'.1.node? id = some node := by
  have hnodes {j : Program × Sharing} (h : ReflTransGen Sharing.InternStep (k.1, k.2.sharing) j) :
      j.1.node? id = some node := by
    induction h with
    | refl => exact hnode
    | tail _ hstep ih =>
      obtain rfl | ⟨new, -, -, -, rfl⟩ := hstep.cases
      · exact ih
      · rw [Program.node?_add, if_neg (Nat.ne_of_lt (Program.lt_size_of_node? ih))]
        exact ih
  exact hnodes h

/-- What is done when a process is entered: its components are found, and none of them may be waiting for others. -/
def enter (path : List ProcessId) (id : ProcessId) : Pass Expansion (List ProcessId) := do
  let components ← ofExcept ((← Pass.program).components id)
  if let some reentered := reentered? (← Pass.notes).known (id :: path) components then
    throw (.unguardedUnfolding ((← Pass.program).cycleName reentered (id :: path)))
  return components

/-- What is done when the components are expanded, which are found once more. -/
def leave (id : ProcessId) : Pass Expansion Unit := do
  if (← Pass.notes).known.contains id then
    return
  let components ← ofExcept ((← Pass.program).components id)
  derive id components

/-- Expansion as a walk. -/
def walk : Walk (Program × Expansion) where
  isDone k id := k.2.known.contains id
  enter := enter
  leave := leave

/-- Expansion enters a process, expands its components and derives its transitions. -/
private theorem expand_eq {depth : Nat} (hnew : k.2.known[id]? = none) :
    expand (depth + 1) path id k =
      (enter path id >>= fun components => do
        components.forM (expand depth (id :: path))
        derive id components) k := by
  obtain ⟨p, e⟩ := k
  have hcontains : ¬ e.known.contains id = true := by
    rw [Std.TreeMap.contains_eq_isSome_getElem?, hnew]
    exact Bool.false_ne_true
  unfold expand enter
  rw [notes_bind_apply, if_neg hcontains]
  simp only [bind, EStateM.bind, Pass.program, Pass.notes]
  cases p.components id with
  | error fault => rfl
  | ok components =>
    cases hre : reentered? e.known (id :: path) components <;>
      simp only [ofExcept, pure, EStateM.pure, hre] <;> rfl

private theorem ends_enter_components :
    Ends (enter path id) k
      (fun components k' => k' = k ∧ k.1.components id = .ok components ∧
        ∀ c ∈ components, c ∈ id :: path → ∃ ts, k.2.known[c]? = some ts)
      fun _ k' => k' = k := by
  obtain ⟨p, e⟩ := k
  unfold enter
  rw [ends_bind, ends_program, ends_bind]
  cases hcomponents : p.components id with
  | error fault =>
    rw [ends_ofExcept_error rfl]
  | ok components =>
    rw [ends_ofExcept_ok rfl, ends_bind, ends_notes]
    split
    · rw [ends_bind, ends_program, ends_bind, ends_throw]
    · rename_i hre
      exact ⟨rfl, rfl, fun c hc hpath => known_of_reentered? hre hc hpath⟩

private theorem leave_eq (hnew : k.2.known[id]? = none) (hcomponents : k.1.components id = .ok components) :
    leave id k = derive id components k := by
  obtain ⟨p, e⟩ := k
  have hcontains : ¬ e.known.contains id = true := by
    rw [Std.TreeMap.contains_eq_isSome_getElem?, hnew]
    exact Bool.false_ne_true
  have hcomponents : p.components id = .ok components := hcomponents
  unfold leave
  rw [notes_bind_apply, if_neg hcontains]
  simp only [bind, EStateM.bind, Pass.program, hcomponents]
  rfl

theorem isDone_walk_iff : walk.isDone k id = true ↔ ∃ ts, k.2.known[id]? = some ts := by
  show k.2.known.contains id = true ↔ _
  rw [Std.TreeMap.contains_eq_isSome_getElem?, Option.isSome_iff_exists]

private theorem kept_of_known (h : k.2.known.Kept k'.2.known) : walk.Kept k k' :=
  fun c hc => isDone_walk_iff.2 ((isDone_walk_iff.1 hc).imp fun ts => h c ts)

theorem lasting_walk : walk.Lasting where
  enter path id k := by
    refine ends_enter_components.mono ?_ fun _ _ _ => trivial
    rintro _ _ ⟨rfl, -⟩
    exact fun _ hc => hc
  leave id k := by
    show Ends (leave id) k _ _
    unfold leave
    obtain ⟨p, e⟩ := k
    rw [ends_bind, ends_notes]
    split
    · exact fun _ hc => hc
    · rename_i hnew
      rw [Std.TreeMap.contains_eq_isSome_getElem?, Option.not_isSome_iff_eq_none] at hnew
      rw [ends_bind, ends_program, ends_bind]
      cases p.components id with
      | error fault => trivial
      | ok components =>
        rw [ends_ofExcept_ok rfl]
        exact (ends_derive_kept hnew).mono (fun _ _ h => kept_of_known h.1) fun _ _ _ => trivial

/-- Components are expanded one after the other, and the walk visits them so. -/
private theorem ends_forM_walk {depth : Nat} (hk : Issued k)
    (hexpand : ∀ {k : Program × Expansion} {path : List ProcessId} {id : ProcessId}, Issued k →
      (id ∈ path → ∃ ts, k.2.known[id]? = some ts) →
        Ends (expand depth path id) k (fun _ k' => walk.visit depth path id k = .ok () k')
          fun fault k' => fault = .searchExhausted ∨ walk.visit depth path id k = .error fault k')
    (hknown : ∀ c ∈ components, c ∈ path → ∃ ts, k.2.known[c]? = some ts) :
    Ends (components.forM (expand depth path)) k
      (fun _ k' => Continues k k' ∧ Grows path k k' ∧ components.forM (walk.visit depth path) k = .ok () k')
      fun fault k' => fault = .searchExhausted ∨ components.forM (walk.visit depth path) k = .error fault k' := by
  refine (Ends.forM_prefix (w := fun k' => k') (I := fun front k' => Continues k k' ∧ Grows path k k' ∧
    front.forM (walk.visit depth path) k = .ok () k') ?_ ⟨⟨hk, .refl⟩, ⟨.refl _, fun _ h => h⟩, rfl⟩).mono ?_
    fun _ _ h => h
  · rintro front c back hsplit k₁ ⟨⟨hissued, hinterns⟩, hgrows, hfront⟩
    have hc (hpath : c ∈ path) : ∃ ts, k₁.2.known[c]? = some ts :=
      (hknown c (by simp [hsplit]) hpath).imp fun ts => hgrows.kept c ts
    refine (((hexpand hissued hc).and (ends_expand_kept hc)).and (ends_expand_issued hissued)).mono ?_ ?_
    · rintro _ k₂ ⟨⟨hwalk, hgrows', -⟩, hissued', hinterns'⟩
      refine ⟨k₂, rfl, ⟨hissued', hinterns.trans hinterns'⟩, ?_, ?_⟩
      · refine ⟨hgrows.kept.trans hgrows'.kept, fun hx hn => ?_⟩
        exact hgrows'.unknown hx (hgrows.unknown hx hn)
      · rw [forM_append_of_ok hfront]
        exact bind_apply_of_ok hwalk _
    · rintro fault k₂ ⟨⟨hfails, -⟩, -⟩
      refine hfails.imp_right fun hwalk => ?_
      rw [hsplit, forM_append_of_ok hfront]
      exact bind_apply_of_error hwalk _
  · rintro _ _ ⟨k', rfl, h⟩
    exact h

/-- Expansion and the walk do the same. By induction on the depth: when the components are expanded, the process still
has the same ones and no transitions. -/
private theorem ends_expand_walk {depth : Nat} (hk : Issued k) (hpath : id ∈ path → ∃ ts, k.2.known[id]? = some ts) :
    Ends (expand depth path id) k (fun _ k' => walk.visit depth path id k = .ok () k')
      fun fault k' => fault = .searchExhausted ∨ walk.visit depth path id k = .error fault k' := by
  induction depth generalizing k path id with
  | zero => exact .inl rfl
  | succ depth ih =>
    unfold Walk.visit
    rw [get_bind_apply]
    by_cases hdone : walk.isDone k id = true
    · rw [if_pos hdone]
      obtain ⟨p, e⟩ := k
      unfold expand
      rw [ends_bind, ends_notes, if_pos (show e.known.contains id = true from hdone)]
      rfl
    · rw [if_neg hdone]
      have hnew : k.2.known[id]? = none :=
        Option.eq_none_iff_forall_ne_some.2 fun ts hts => hdone (isDone_walk_iff.2 ⟨ts, hts⟩)
      refine Ends.of_eq (expand_eq hnew) ?_
      rw [ends_bind]
      refine ((ends_outcome (enter path id) k).and ends_enter_components).mono ?_ ?_
      · rintro components _ ⟨henter, rfl, hcomponents, hknown⟩
        rw [bind_apply_of_ok (c := walk.enter path id) henter, ends_bind]
        refine (ends_forM_walk hk ih hknown).mono ?_ ?_
        · rintro _ k₁ ⟨⟨-, hinterns⟩, hgrows, hwalk⟩
          rw [bind_apply_of_ok hwalk]
          -- when the process is left, it has the same components as when it was entered
          have hagain : k₁.1.components id = .ok components :=
            Program.components_mono hinterns.size_le (fun _ _ => hinterns.node?_eq) hcomponents
          have hleave : walk.leave id k₁ = derive id components k₁ :=
            leave_eq (hgrows.unknown List.mem_cons_self hnew) hagain
          rw [hleave]
          exact (ends_outcome _ _).mono (fun _ _ h => h) fun _ _ h => .inr h
        · rintro fault k₁ hfails
          exact hfails.imp_right fun hwalk => bind_apply_of_error hwalk _
      · rintro fault _ ⟨henter, -⟩
        exact .inr (bind_apply_of_error (c := walk.enter path id) henter _)

/-- What is known of a process that was expanded. -/
def found (id : ProcessId) : Pass Expansion Transitions := do
  return (← Pass.notes).known.getD id ∅

/-- Expansion by the loop, in at most `steps` steps. -/
def run (steps : Nat) (id : ProcessId) : Pass Expansion Transitions := do
  walk.loop steps [⟨id, false⟩]
  found id

private theorem exists_run_eq_expand {depth : Nat} (hk : Issued k)
    (h : ∀ k', expand depth [] id k ≠ .error .searchExhausted k') :
    ∃ n, ∀ more, run (n + more) id k = (expand depth [] id >>= fun _ => found id) k := by
  have hwalk : walk.visit depth [] id k = expand depth [] id k := by
    have hexpand : Ends (expand depth [] id) k _ _ := ends_expand_walk hk nofun
    cases hrun : expand depth [] id k with
    | ok u k' => exact hexpand.of_ok hrun
    | error fault k' =>
      refine (hexpand.of_error hrun).resolve_left ?_
      rintro rfl
      exact h k' hrun
  have hends (k' : Program × Expansion) : walk.visit depth [] id k ≠ .error .searchExhausted k' := by
    rw [hwalk]
    exact h k'
  obtain ⟨n, hn⟩ := lasting_walk.exists_loop_eq hends
  refine ⟨n, fun more => ?_⟩
  simp only [run, bind, EStateM.bind, hn, hwalk]

private theorem successors_eq (p : Program) (e : Expansion) (id : ProcessId) :
    successors id (p, e) = (expand p.expansionBound [] id >>= fun _ => found id) (p, e) := by
  unfold successors
  exact program_bind_apply _

/-- The loop finds the same transitions, or fails with the same fault. -/
theorem exists_run_eq (hk : Issued k) (h : ∀ k', successors id k ≠ .error .searchExhausted k') :
    ∃ n, ∀ more, run (n + more) id k = successors id k := by
  obtain ⟨p, e⟩ := k
  simp only [successors_eq] at h ⊢
  exact exists_run_eq_expand hk fun k' hex => h k' (bind_apply_of_error hex _)

end Expansion

namespace Program

/-- From a process from which the walks over a program come to their ends, the loops do so as well: they answer the same
and leave the same behind. -/
theorem Walkable.exists_loops {p : Program} {id : ProcessId} (hp : p.WellFormed) (h : p.Walkable id) :
    (∃ n, ∀ more, Sharing.fold.run (n + more) id (p, ∅) = Sharing.share id (p, ∅)) ∧
      (∃ n, ∀ more, Simplification.fold.run (n + more) id (p, ∅) = Simplification.simplify id (p, ∅)) ∧
        (∃ n, ∀ more, (HashFunction.fold Sha256.digest p).run (n + more) id ∅ = Digest.ofTerm p id ∅) ∧
          ∃ n, ∀ more, Expansion.run (n + more) id (p, ∅) = Expansion.successors id (p, ∅) := by
  obtain ⟨canonical, t, hshare⟩ := h.share
  obtain ⟨form, t', hsimplify⟩ := h.simplify
  obtain ⟨digest, known, hdigest⟩ := h.digest
  refine ⟨Sharing.exists_run_eq ?_, Simplification.exists_run_eq ?_ ?_, HashFunction.exists_run_eq Sha256.digest ?_,
    Expansion.exists_run_eq ?_ ?_⟩
  · simp [hshare]
  · exact fun _ _ => Simplification.form?_empty _
  · simp [hsimplify]
  · show ∀ known', Digest.ofTerm p id ∅ ≠ _
    simp [hdigest]
  · exact .empty hp
  · rcases h.successors with ⟨ts, t, hok⟩ | ⟨name, t, hfails⟩
    · simp [hok]
    · simp [hfails]

end Program

end ProcessCalculus
