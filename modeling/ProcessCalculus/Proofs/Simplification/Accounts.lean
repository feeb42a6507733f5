import Mathlib.Data.Set.Card
import ProcessCalculus.Proofs.Simplification.Recursion

/-!
# What the notes of simplification account for

Simplification may be called again and again with the same notes, for single terms and for all definitions. Its notes
are an account of all that was done. The laws that were applied are still found in the program, one at each process that
is not its own form, and the program has grown by one node for each merged restriction.

The node of a process that has a form is not written again, with one exception: simplification of all definitions
redirects the names, those that were visited included.

* `Simplification.Call`: the calls.
* `Simplification.Spares`, `Simplification.Move.spares`: what a change does to processes that have a form.
* `Simplification.contracted`, `Simplification.VisitStep.mem_contracted`: where laws are found, and that a visit adds
  its own process at most.
* `Simplification.Accounted`, `Simplification.accounted_of_moves`: the account, and that it is right after any changes.
* `Simplification.calls_accounted`: any sequence of calls.
* `Simplification.node?_redirected_visitedName`: a visited name is redirected.
-/

namespace ProcessCalculus

open Relation Term

namespace Program

variable {p : Program} {id form : ProcessId} {node : Node ProcessId} {law : Law}

/-- Two restrictions are merged into a node. -/
theorem ne_restrictionMerge_of_redex? (h : p.redex? node = some (law, .process form)) : law ≠ .restrictionMerge := by
  cases node <;> simp only [redex?] at h <;> grind

/-- No law is found, nor lost, where a name is redirected. -/
theorem law?_redirect {name : String} {body body' : Option ProcessId} (hid : p.node? id = some (.named name body))
    (x : ProcessId) : (p.write id (.named name body')).law? x = p.law? x := by
  rw [law?, law?, node?_write_of_lt (lt_size_of_node? hid)]
  by_cases hx : id = x
  · subst hx
    rw [if_pos rfl, hid]
    rfl
  · rw [if_neg hx]
    cases p.node? x with
    | none => rfl
    | some node => rw [Option.bind_some, Option.bind_some, Simplification.redex?_redirect hid]

end Program

namespace Simplification

/-- A call with the notes of earlier ones, for the form of one term or for those of all definitions. It may fail. -/
inductive Call : Program × Simplification → Program × Simplification → Prop
  | simplify (t : Program × Simplification) (id : ProcessId) : Call t (after (Simplification.simplify id) t)
  | simplifyProgram (t : Program × Simplification) : Call t (after Simplification.simplifyProgram t)

/-- Forms stay, and so do the nodes of processes that have one, but a name may have been redirected from its definition
to the form of that. -/
structure Spares (t t' : Program × Simplification) : Prop where
  form?_eq {id form : ProcessId} : t.2.form? id = some form → t'.2.form? id = some form
  node?_eq {id form : ProcessId} : t.2.form? id = some form → t'.1.node? id = t.1.node? id ∨
    ∃ name body body', t.1.node? id = some (.named name (some body)) ∧
      t'.1.node? id = some (.named name (some body')) ∧ t'.2.form? body = some body'

/-- The notes `t.2` account for what was done to the program `p`. Forms are their own forms, and what is below them as
well. A law is found at a process that has a form exactly if this is another process. Each law was applied as often as
it is found at such processes, and the nodes that were added are those of merged restrictions. -/
structure Accounted (p : Program) (t : Program × Simplification) : Prop where
  lt_size {id form : ProcessId} : t.2.form? id = some form → id < t.1.size
  form_form {id form : ProcessId} : t.2.form? id = some form → t.2.form? form = some form
  stable_child {id c : ProcessId} : t.2.isStable id = true → t.1.Child id c → t.2.isStable c = true
  law?_ne_none_iff {id form : ProcessId} : t.2.form? id = some form → (t.1.law? id ≠ none ↔ form ≠ id)
  count_eq (law : Law) : t.2.count law = {id | (∃ form, t.2.form? id = some form) ∧ t.1.law? id = some law}.ncard
  total_eq : t.2.total = {id | ∃ form, t.2.form? id = some form ∧ form ≠ id}.ncard
  size_eq : t.1.size = p.size + t.2.count .restrictionMerge

variable {p : Program} {s : Simplification} {t t' t'' : Program × Simplification} {id form x f : ProcessId}
  {P : Law → Bool}

/-! ### Processes that have a form -/

namespace Spares

theorem refl (t : Program × Simplification) : Spares t t :=
  ⟨fun h => h, fun _ => .inl rfl⟩

/-- A name that was redirected to a form is not redirected any further. -/
theorem trans (h : Spares t t') (h' : Spares t' t'') (hformed : Formed t'') : Spares t t'' where
  form?_eq hf := h'.form?_eq (h.form?_eq hf)
  node?_eq hf := by
    rcases h.node?_eq hf with hsame | ⟨name, body, body', hnode, hnode', hbody⟩
    · rcases h'.node?_eq (h.form?_eq hf) with hsame' | hredirected
      · exact .inl (hsame'.trans hsame)
      · exact .inr (hsame ▸ hredirected)
    · have hbody'' := h'.form?_eq hbody
      rcases h'.node?_eq (h.form?_eq hf) with hsame' | ⟨_, _, body'', hnode₁, hnode₂, hform⟩
      · exact .inr ⟨name, body, body', hnode, hsame'.trans hnode', hbody''⟩
      · rw [hnode'] at hnode₁
        cases hnode₁
        obtain rfl : body' = body'' := Option.some.inj ((hformed hbody'').form_form.symm.trans hform)
        exact .inr ⟨name, body, body', hnode, hnode₂, hbody''⟩

end Spares

theorem Retains.spares (h : Retains t t') : Spares t t' :=
  ⟨h.form?_eq, fun hf => .inl (h.node?_eq hf)⟩

theorem Move.spares (h : Move t t') (hformed : Formed t) : Spares t t' := by
  cases h with
  | visit hstep => exact (hstep.retains hformed).spares
  | @redirect p s id body form name hnode hform =>
    have hlt := Program.lt_size_of_node? hnode
    have hwrite (x : ProcessId) := Program.node?_write_of_lt hlt (.named name (some form)) x
    refine ⟨fun hf => hf, fun {x f} hf => ?_⟩
    by_cases hx : id = x
    · subst hx
      exact .inr ⟨name, body, form, hnode, (hwrite id).trans (if_pos rfl), hform⟩
    · exact .inl ((hwrite x).trans (if_neg hx))

theorem Formed.spares_of_moves (hformed : Formed t) (h : ReflTransGen Move t t') : Spares t t' := by
  induction h with
  | refl => exact .refl t
  | tail hmoves hmove ih =>
    have hformed' := hformed.moves hmoves
    exact ih.trans (hmove.spares hformed') (hmove.formed hformed')

/-! ### Where laws were applied -/

/-- The processes that have a form and at which a law of some kind is found. -/
def contracted (t : Program × Simplification) (P : Law → Bool) : Set ProcessId :=
  {x | (∃ form, t.2.form? x = some form) ∧ ∃ law, t.1.law? x = some law ∧ P law = true}

/-- What is its own form is so because no law was found. -/
theorem Formed.law?_eq_none_iff (h : Formed t) (hform : t.2.form? id = some form) :
    t.1.law? id = none ↔ form = id := by
  obtain ⟨-, node, hnode, -, hlaw⟩ := h hform
  rw [Program.law?, hnode, Option.bind_some, Option.map_eq_none_iff, hlaw]

theorem Formed.isStable_child (h : Formed t) {c : ProcessId} (hid : t.2.isStable id = true) (hchild : t.1.Child id c) :
    t.2.isStable c = true := by
  have hform : t.2.form? id = some id := beq_iff_eq.1 hid
  exact beq_iff_eq.2 (h.form?_of_below hform (.single hchild))

theorem contracted_beq (t : Program × Simplification) (law : Law) :
    contracted t (· == law) = {id | (∃ form, t.2.form? id = some form) ∧ t.1.law? id = some law} := by
  ext x
  simp [contracted]

/-- Some law is found at what is not its own form. -/
theorem Formed.contracted_true (h : Formed t) :
    contracted t (fun _ => true) = {id | ∃ form, t.2.form? id = some form ∧ form ≠ id} := by
  ext x
  constructor
  · rintro ⟨⟨form, hform⟩, law, hlaw, -⟩
    refine ⟨form, hform, fun hself => ?_⟩
    cases hlaw.symm.trans ((h.law?_eq_none_iff hform).2 hself)
  · rintro ⟨form, hform, hne⟩
    obtain ⟨law, hlaw⟩ := Option.ne_none_iff_exists'.1 (mt (h.law?_eq_none_iff hform).1 hne)
    exact ⟨⟨form, hform⟩, law, hlaw, rfl⟩

theorem Formed.contracted_finite (h : Formed t) (P : Law → Bool) : (contracted t P).Finite :=
  (Set.finite_lt_nat t.1.size).subset fun _ ⟨⟨_, hform⟩, _⟩ => h.lt hform

namespace VisitStep

/-- Another process that gets a form in a visit is new, and its own form. -/
theorem form_eq_self (h : VisitStep id t t') (hx : x ≠ id) (hnew : t.2.form? x = none)
    (hform : t'.2.form? x = some form) : form = x := by
  cases h with
  | stable h hlaw =>
    rw [form?_record, if_neg (Ne.symm hx), hnew] at hform
    cases hform
  | reduced h hlaw =>
    rw [form?_record, if_neg (Ne.symm hx), form?_recordLaw, hnew] at hform
    cases hform
  | merged h hlaw =>
    rw [form?_record, if_neg (Ne.symm hx), form?_recordLaw, form?_record] at hform
    split at hform
    · rename_i hsize
      cases hform
      exact hsize
    · cases hnew.symm.trans hform

/-- A visit finds a law at its own process at most. -/
theorem mem_contracted (h : VisitStep id t t') (hformed : Formed t) :
    x ∈ contracted t' P ↔ x ∈ contracted t P ∨ x = id ∧ ∃ law, t'.1.law? id = some law ∧ P law = true := by
  obtain ⟨node, hready⟩ := h.exists_ready
  have hretains := h.retains hformed
  show (∃ form, t'.2.form? x = some form) ∧ _ ↔ ((∃ form, t.2.form? x = some form) ∧ _) ∨ _
  cases hx : t.2.form? x with
  | some f => simp [hretains.form?_eq hx, hformed.law?_eq hretains hx, hready.ne_of_form? hx]
  | none =>
    by_cases hid : x = id
    · subst hid
      obtain ⟨form, hform⟩ := h.exists_form?
      simp [hform]
    · have hnone (form : ProcessId) (hform : t'.2.form? x = some form) : t'.1.law? x = none :=
        ((h.formed hformed).law?_eq_none_iff hform).2 (h.form_eq_self hid hx hform)
      refine iff_of_false ?_ (by simp [hid])
      rintro ⟨⟨form, hform⟩, law, hlaw, -⟩
      cases (hnone form hform).symm.trans hlaw

/-- A visit applies the laws that are found because of it. -/
theorem countP_applied (h : VisitStep id t t') (hformed : Formed t)
    (hcount : t.2.applied.countP P = (contracted t P).ncard) :
    t'.2.applied.countP P = (contracted t' P).ncard := by
  obtain ⟨node, hready⟩ := h.exists_ready
  have hnew : id ∉ contracted t P := by
    rintro ⟨⟨form, hform⟩, -⟩
    exact hready.ne_of_form? hform rfl
  rw [h.applied_eq hformed, List.countP_append, hcount]
  by_cases hlaw : ∃ law, t'.1.law? id = some law ∧ P law = true
  · have hmore : contracted t' P = insert id (contracted t P) := by
      ext x
      rw [h.mem_contracted hformed, and_iff_left hlaw, or_comm, Set.mem_insert_iff]
    obtain ⟨law, hfound, hP⟩ := hlaw
    rw [hmore, Set.ncard_insert_of_notMem hnew (hformed.contracted_finite P), hfound, Option.toList_some,
      List.countP_singleton, if_pos hP, Nat.add_comm]
  · have hsame : contracted t' P = contracted t P := by
      ext x
      rw [h.mem_contracted hformed, or_iff_left fun hx => hlaw hx.2]
    have hzero : (t'.1.law? id).toList.countP P = 0 := by
      rw [List.countP_eq_zero]
      intro law hmem hP
      exact hlaw ⟨law, Option.mem_toList.1 hmem, hP⟩
    rw [hsame, hzero, Nat.zero_add]

/-- A visit adds a node exactly if it merges restrictions. -/
theorem size_add_count (h : VisitStep id t t') :
    t'.1.size + t.2.count .restrictionMerge = t.1.size + t'.2.count .restrictionMerge := by
  cases h with
  | stable h hlaw =>
    rw [Program.size_write]
    rfl
  | @reduced p s node law form h hlaw =>
    have hcount : (s.recordLaw law).count .restrictionMerge = s.count .restrictionMerge :=
      List.count_cons_of_ne (Program.ne_restrictionMerge_of_redex? hlaw)
    rw [Program.size_write]
    exact congrArg (p.size + ·) hcount.symm
  | @merged p s node residual law h hlaw =>
    obtain ⟨_, _, _, _, -, -, -, rfl, -⟩ := Program.eq_restrict_of_redex? hlaw
    have hcount : (s.recordLaw .restrictionMerge).count .restrictionMerge = s.count .restrictionMerge + 1 :=
      List.count_cons_self
    rw [Program.size_add, Program.size_write]
    show p.size + 1 + s.count .restrictionMerge = p.size + (s.recordLaw .restrictionMerge).count .restrictionMerge
    omega

end VisitStep

/-- A change applies the laws that are found because of it. -/
theorem Move.countP_applied (h : Move t t') (hformed : Formed t)
    (hcount : t.2.applied.countP P = (contracted t P).ncard) :
    t'.2.applied.countP P = (contracted t' P).ncard := by
  cases h with
  | visit hstep => exact hstep.countP_applied hformed hcount
  | @redirect p s id body form name hnode hform =>
    have hsame : contracted (p.write id (.named name (some form)), s) P = contracted (p, s) P := by
      ext x
      simp only [contracted, Set.mem_ofPred_eq, Program.law?_redirect hnode]
    rw [hsame, hcount]

theorem Move.size_add_count (h : Move t t') :
    t'.1.size + t.2.count .restrictionMerge = t.1.size + t'.2.count .restrictionMerge := by
  cases h with
  | visit hstep => exact hstep.size_add_count
  | redirect hnode hform => rw [Program.size_write]

theorem countP_applied_of_moves (h : ReflTransGen Move (p, ∅) t) (P : Law → Bool) :
    t.2.applied.countP P = (contracted t P).ncard := by
  induction h with
  | refl =>
    have hnone : contracted (p, ∅) P = ∅ := Set.eq_empty_of_forall_notMem fun x ⟨⟨form, hform⟩, _⟩ => by simp at hform
    rw [hnone, Set.ncard_empty]
    rfl
  | tail hmoves hmove ih => exact hmove.countP_applied ((Formed.empty p).moves hmoves) ih

theorem size_eq_of_moves (h : ReflTransGen Move (p, ∅) t) : t.1.size = p.size + t.2.count .restrictionMerge := by
  induction h with
  | refl => rfl
  | tail _ hmove ih =>
    have hsize := hmove.size_add_count
    omega

/-- The account of a run from fresh notes on. -/
theorem accounted_of_moves (h : ReflTransGen Move (p, ∅) t) : Accounted p t := by
  have hformed := (Formed.empty p).moves h
  refine ⟨hformed.lt, fun hform => (hformed hform).form_form, hformed.isStable_child,
    fun hform => not_congr (hformed.law?_eq_none_iff hform), fun law => ?_, ?_, size_eq_of_moves h⟩
  · rw [← contracted_beq, ← countP_applied_of_moves h]
    rfl
  · rw [← hformed.contracted_true, ← countP_applied_of_moves h, List.countP_true]
    rfl

/-! ### Calls -/

section Calls

variable {defs : String → Term → Prop} {r : Reading}

/-- A call for one term, whether there is such a term or not. -/
theorem Sound.after_simplify (h : Sound defs r s) (hformed : Formed (r.program, s)) (id : ProcessId) :
    ∃ r' s', after (simplify id) (r.program, s) = (r'.program, s') ∧ Sound defs r' s' ∧
      VisitSteps (ReflTransGen r.program.Child id) (r.program, s) (r'.program, s') := by
  refine Ends.after (P := fun t => ∃ r' s', t = (r'.program, s') ∧ Sound defs r' s' ∧
    VisitSteps (ReflTransGen r.program.Child id) (r.program, s) (r'.program, s')) ?_
  rcases Nat.lt_or_ge id r.program.size with hid | hid
  · refine (h.ends_simplify_below hformed hid).mono ?_ fun _ _ h => h.elim
    rintro form _ ⟨⟨r', s', rfl, hs', -⟩, hsteps, -⟩
    exact ⟨r', s', rfl, hs', hsteps⟩
  · refine (ends_simplify_of_le h hid).mono (fun _ _ h => h.elim) ?_
    rintro _ _ ⟨-, rfl⟩
    exact ⟨r, s, rfl, h, .refl⟩

/-- Calls make changes of the two kinds only. -/
theorem Call.exists_sound (hcall : Call (r.program, s) t') (h : Sound defs r s) (hformed : Formed (r.program, s)) :
    ∃ r' s', t' = (r'.program, s') ∧ Sound defs r' s' ∧ ReflTransGen Move (r.program, s) t' := by
  cases hcall with
  | simplify id =>
    obtain ⟨r', s', hafter, hs', hsteps⟩ := h.after_simplify hformed id
    exact ⟨r', s', hafter, hs', hafter ▸ hsteps.moves⟩
  | simplifyProgram =>
    refine Ends.after (P := fun t => ∃ r' s', t = (r'.program, s') ∧ Sound defs r' s' ∧
      ReflTransGen Move (r.program, s) t) ?_
    refine (h.ends_simplifyProgram_moves hformed).mono ?_ fun _ _ h => h.elim
    rintro _ _ ⟨r', s', rfl, hs', -, hmoves⟩
    exact ⟨r', s', rfl, hs', hmoves⟩

theorem exists_sound_of_calls (hcalls : ReflTransGen Call (r.program, s) t') (h : Sound defs r s)
    (hformed : Formed (r.program, s)) :
    ∃ r' s', t' = (r'.program, s') ∧ Sound defs r' s' ∧ ReflTransGen Move (r.program, s) t' := by
  induction hcalls with
  | refl => exact ⟨r, s, rfl, h, .refl⟩
  | tail _ hcall ih =>
    obtain ⟨r₁, s₁, rfl, hs₁, hmoves⟩ := ih
    obtain ⟨r', s', rfl, hs', hmoves'⟩ := hcall.exists_sound hs₁ (hformed.moves hmoves)
    exact ⟨r', s', rfl, hs', hmoves.trans hmoves'⟩

end Calls

/-- From fresh notes on, any calls are made, and then some more. What these do is a sequence of changes, each of which
ends the visit of a process that has no form yet, with one law at most, or redirects a name. After any such changes the
notes account for all that was done to the program, and further ones do not write a process that has a form by then,
unless it is a name, which may be redirected to the form of its definition. A call for one term does not even do this,
and it notes the form that it answers. -/
theorem calls_accounted (hp : Built p) (h : ReflTransGen Call (p, ∅) t) (h' : ReflTransGen Call t t') :
    ReflTransGen Move t t' ∧
      (∀ u u', ReflTransGen Move t u → ReflTransGen Move u u' → Accounted p u ∧ Spares u u') ∧
      ∀ id, Retains t (after (simplify id) t) ∧
        (id < t.1.size → ∃ form u, simplify id t = .ok form u ∧ u.2.form? id = some form) := by
  obtain ⟨r, rfl, hr⟩ := hp.exists_reading Simplifies.refl
  obtain ⟨m, -, hsound⟩ := Sound.exists_of_valid hr
  obtain ⟨r₁, s₁, rfl, hs₁, hmoves⟩ := exists_sound_of_calls (r := ⟨r.program, m⟩) h hsound (.empty _)
  have hformed := (Formed.empty r.program).moves hmoves
  obtain ⟨-, -, -, -, hmoves'⟩ := exists_sound_of_calls h' hs₁ hformed
  refine ⟨hmoves', fun u u' hu hu' => ?_, fun id => ⟨?_, fun hid => ?_⟩⟩
  · exact ⟨accounted_of_moves (hmoves.trans hu), (hformed.moves hu).spares_of_moves hu'⟩
  · obtain ⟨r₂, s₂, hafter, -, hsteps⟩ := hs₁.after_simplify hformed id
    exact hafter ▸ hsteps.retains hformed
  · obtain ⟨form, u, hok, -, -, hform⟩ := (hs₁.ends_simplify_below hformed hid).exists_ok
    exact ⟨form, u, hok, hform⟩

/-- The definition `P = 0 + (a.P \ b) \ c`, where the name has the identifier 1 and the sum the identifier 5. -/
private def visitedName : Program :=
  let p := (Program.add ∅ .null).2
  let p := (p.mention "P").2
  let p := (p.add (.act (.visible "a" .input) 1)).2
  let p := (p.add (.restrict 2 (.ofList ["b"]))).2
  let p := (p.add (.restrict 3 (.ofList ["c"]))).2
  let p := (p.add (.sum 0 4)).2
  after (Program.define "P" 5) p

private theorem built_visitedName : Built visitedName :=
  ((((((ReflTransGen.refl.tail (.add rfl (by decide))).tail (.mention _ "P")).tail (.add rfl (by decide))).tail
    (.add rfl (by decide))).tail (.add rfl (by decide))).tail (.add rfl (by decide))).tail (.define _ "P" 5)

/-- A call for the name, and then one for all definitions. The restrictions are merged into the node 6, which is the
form of the outer one and of the sum, and the only node that is new. -/
theorem calls_accounted_visitedName :
    let t := after (simplify 1) (visitedName, ∅)
    let t' := after simplifyProgram t
    Built visitedName ∧ ReflTransGen Call (visitedName, ∅) t ∧ ReflTransGen Call t t' ∧
      ReflTransGen Move t t' ∧ Accounted visitedName t' ∧ Spares t t' ∧
      t'.2.form? 4 = some 6 ∧ t'.2.form? 5 = some 6 ∧ t'.2.form? 6 = some 6 ∧
      {id | ∃ form, t'.2.form? id = some form ∧ form ≠ id}.ncard = 2 ∧
      {id | (∃ form, t'.2.form? id = some form) ∧ t'.1.law? id = some .restrictionMerge}.ncard = 1 ∧
      t'.1.size = visitedName.size + 1 := by
  intro t t'
  have hcalls : ReflTransGen Call (visitedName, ∅) t := .single (.simplify _ 1)
  have hcalls' : ReflTransGen Call t t' := .single (.simplifyProgram t)
  obtain ⟨hmoves, haccounts, -⟩ := calls_accounted built_visitedName hcalls hcalls'
  obtain ⟨haccounted, -⟩ := haccounts t' t' hmoves .refl
  obtain ⟨-, hspares⟩ := haccounts t t' .refl hmoves
  have htotal : t'.2.total = 2 := by decide +kernel
  have hmerges : t'.2.count .restrictionMerge = 1 := by decide +kernel
  exact ⟨built_visitedName, hcalls, hcalls', hmoves, haccounted, hspares, by decide +kernel, by decide +kernel,
    by decide +kernel, haccounted.total_eq.symm.trans htotal, (haccounted.count_eq _).symm.trans hmerges,
    hmerges ▸ haccounted.size_eq⟩

/-- The node of the name is written although the name has a form by then, and is its own form before and after. -/
theorem node?_redirected_visitedName :
    let t := after (simplify 1) (visitedName, ∅)
    let t' := after simplifyProgram t
    Built visitedName ∧ ReflTransGen Call (visitedName, ∅) t ∧ ReflTransGen Call t t' ∧
      t.2.form? 1 = some 1 ∧ t'.2.form? 1 = some 1 ∧
      t.1.node? 1 = some (.named "P" (some 5)) ∧ t'.1.node? 1 = some (.named "P" (some 6)) :=
  ⟨built_visitedName, .single (.simplify _ 1), .single (.simplifyProgram _), by decide +kernel, by decide +kernel,
    by decide +kernel, by decide +kernel⟩

end Simplification

end ProcessCalculus
