import ProcessCalculus.Proofs.Program.Outcome

/-!
# Walks with a stack

The searches and passes over terms are defined by recursion. The same walks can be made by a loop over a stack of
frames: for processes that are to be entered, and for those that are left once all above them is done. A process that
is done already is passed over, whether it is met before it would be pushed or only afterwards. The loop ends as the
recursion does, with the same fault or the same notes.

* `Walk`, `Walk.visit`: a walk, by recursion.
* `Walk.step`, `Walk.loop`: the walk by a loop.
* `Walk.exists_loop_eq`: the loop ends as the recursion.
-/

namespace ProcessCalculus

variable {σ : Type}

/-- A walk over processes, depth first, with notes of type `σ`. When a process is entered, those that come before it
are named; the processes that wait for it are given, the latest first. It is left when these have been visited. -/
structure Walk (σ : Type) where
  isDone : σ → ProcessId → Bool
  enter : (path : List ProcessId) → ProcessId → EStateM Fault σ (List ProcessId)
  leave : ProcessId → EStateM Fault σ Unit

/-- A frame of the stack: a process that is to be entered, or one that was entered and is to be left. -/
structure Frame where
  id : ProcessId
  entered : Bool

/-- The processes that wait for others, the latest first. -/
def Frame.path (stack : List Frame) : List ProcessId :=
  (stack.filter Frame.entered).map Frame.id

namespace Walk

section

variable (w : Walk σ)

/-- The walk from a process, at most `depth` levels deep. -/
def visit : (depth : Nat) → (path : List ProcessId) → ProcessId → EStateM Fault σ Unit
  | 0, _, _ => throw .searchExhausted
  | depth + 1, path, id => do
    if w.isDone (← get) id then
      return
    let children ← w.enter path id
    children.forM (visit depth (id :: path))
    w.leave id

/-- Puts processes on the stack, the first one on top, but none that is done. -/
def push (s : σ) (children : List ProcessId) (stack : List Frame) : List Frame :=
  (children.filter fun c => !w.isDone s c).map (fun c => ⟨c, false⟩) ++ stack

/-- What is done with the frame on top of the stack. -/
def step (rest : List Frame) : Frame → EStateM Fault σ (List Frame)
  | ⟨id, true⟩ => do
    w.leave id
    return rest
  | ⟨id, false⟩ => do
    if w.isDone (← get) id then
      return rest
    let children ← w.enter (Frame.path rest) id
    return w.push (← get) children (⟨id, true⟩ :: rest)

/-- Takes frames off the stack until none is left, in at most `steps` steps. -/
def loop : (steps : Nat) → List Frame → EStateM Fault σ Unit
  | _, [] => return
  | 0, _ :: _ => throw .searchExhausted
  | steps + 1, frame :: rest => do
    loop steps (← w.step rest frame)

/-- After some steps the loop goes on with another stack and other notes. -/
def Leads (stack : List Frame) (s : σ) (stack' : List Frame) (s' : σ) : Prop :=
  ∃ n, ∀ more, w.loop (n + more) stack s = w.loop more stack' s'

/-- After some steps the loop fails. -/
def Fails (stack : List Frame) (s : σ) (fault : Fault) (s' : σ) : Prop :=
  ∃ n, ∀ more, w.loop (n + more) stack s = .error fault s'

/-- What is done before stays done. -/
def Kept (s s' : σ) : Prop :=
  ∀ c, w.isDone s c = true → w.isDone s' c = true

/-- What is done stays done, whatever is entered and left. -/
structure Lasting : Prop where
  enter (path : List ProcessId) (id : ProcessId) (s : σ) : Ends (w.enter path id) s (fun _ => w.Kept s) fun _ _ => True
  leave (id : ProcessId) (s : σ) : Ends (w.leave id) s (fun _ => w.Kept s) fun _ _ => True

end

variable {w : Walk σ} {stack stack' stack'' rest : List Frame} {s s' s'' : σ} {fault : Fault} {id : ProcessId}

theorem Kept.trans (h : w.Kept s s') (h' : w.Kept s' s'') : w.Kept s s'' :=
  fun c hc => h' c (h c hc)

theorem Leads.refl : w.Leads stack s stack s :=
  ⟨0, fun more => by rw [Nat.zero_add]⟩

theorem Leads.trans (h : w.Leads stack s stack' s') (h' : w.Leads stack' s' stack'' s'') :
    w.Leads stack s stack'' s'' := by
  obtain ⟨n, hn⟩ := h
  obtain ⟨n', hn'⟩ := h'
  exact ⟨n + n', fun more => by rw [Nat.add_assoc, hn, hn']⟩

theorem Leads.fails (h : w.Leads stack s stack' s') (h' : w.Fails stack' s' fault s'') :
    w.Fails stack s fault s'' := by
  obtain ⟨n, hn⟩ := h
  obtain ⟨n', hn'⟩ := h'
  exact ⟨n + n', fun more => by rw [Nat.add_assoc, hn, hn']⟩

theorem leads_of_step {frame : Frame} (h : w.step rest frame s = .ok stack s') :
    w.Leads (frame :: rest) s stack s' := by
  refine ⟨1, fun more => ?_⟩
  rw [Nat.add_comm, loop]
  exact bind_apply_of_ok h _

theorem fails_of_step {frame : Frame} (h : w.step rest frame s = .error fault s') :
    w.Fails (frame :: rest) s fault s' := by
  refine ⟨1, fun more => ?_⟩
  rw [Nat.add_comm, loop]
  exact bind_apply_of_error h _

/-- The frames of processes that are to be entered wait for nothing. -/
theorem path_push (children : List ProcessId) : Frame.path (w.push s children stack) = Frame.path stack := by
  unfold push
  induction children with
  | nil => rfl
  | cons c children ih =>
    rw [List.filter_cons]
    split <;> exact ih

/-- What the loop does with a process, where the recursion gets on with a given depth. -/
def Follows (w : Walk σ) (depth : Nat) : Prop :=
  ∀ (id : ProcessId) (rest : List Frame) (s : σ),
    Ends (w.visit depth (Frame.path rest) id) s
      (fun _ s' => w.Leads (⟨id, false⟩ :: rest) s rest s' ∧ w.Kept s s')
      fun fault s' => fault = .searchExhausted ∨ w.Fails (⟨id, false⟩ :: rest) s fault s'

/-- The processes that were pushed are taken off one after the other. Some of them may be done meanwhile, and those that
were not pushed are still done. -/
private theorem Follows.ends_forM {depth : Nat} (h : w.Follows depth) (rest : List Frame) {s₀ : σ}
    (children : List ProcessId) (hs : w.Kept s₀ s) :
    Ends (children.forM (w.visit depth (Frame.path rest))) s
      (fun _ s' => w.Leads (w.push s₀ children rest) s rest s' ∧ w.Kept s s')
      fun fault s' => fault = .searchExhausted ∨ w.Fails (w.push s₀ children rest) s fault s' := by
  induction children generalizing s with
  | nil => exact ⟨.refl, fun _ hc => hc⟩
  | cons c children ih =>
    show Ends (w.visit depth (Frame.path rest) c >>= fun _ => children.forM _) s _ _
    have hpath : Frame.path (w.push s₀ children rest) = Frame.path rest := path_push children
    rw [ends_bind, ← hpath]
    by_cases hc : w.isDone s₀ c = true
    · -- a process that was done is done, so its visit changes nothing
      have hpush : w.push s₀ (c :: children) rest = w.push s₀ children rest := by
        simp [push, hc]
      rw [hpush]
      cases depth with
      | zero => exact .inl rfl
      | succ depth =>
        have hvisit : w.visit (depth + 1) (Frame.path (w.push s₀ children rest)) c s = .ok () s := by
          rw [visit, get_bind_apply, if_pos (hs c hc)]
          rfl
        refine ends_of_ok hvisit ?_
        rw [hpath]
        exact ih hs
    · have hpush : w.push s₀ (c :: children) rest = ⟨c, false⟩ :: w.push s₀ children rest := by
        simp [push, hc]
      rw [hpush]
      refine (h c (w.push s₀ children rest) s).mono ?_ fun _ _ h => h
      rintro _ s₁ ⟨hleads, hkept⟩
      rw [hpath]
      refine (ih (hs.trans hkept)).mono ?_ ?_
      · rintro _ s₂ ⟨hleads', hkept'⟩
        exact ⟨hleads.trans hleads', hkept.trans hkept'⟩
      · rintro fault s₂ hfails
        exact hfails.imp_right hleads.fails

/-- By induction on the depth: what stands on the stack below a process is there again when the process is left. -/
theorem Lasting.follows (hw : w.Lasting) (depth : Nat) : w.Follows depth := by
  induction depth with
  | zero => exact fun _ _ _ => .inl rfl
  | succ depth ih =>
    intro id rest s
    unfold visit
    rw [ends_bind, ends_get]
    split
    · rename_i hdone
      have hstep : w.step rest ⟨id, false⟩ s = .ok rest s := by
        rw [step, get_bind_apply, if_pos hdone]
        rfl
      exact ⟨leads_of_step hstep, fun _ hc => hc⟩
    · rename_i hnew
      have hstep : w.step rest ⟨id, false⟩ s =
          (w.enter (Frame.path rest) id >>= fun children => do
            return w.push (← get) children (⟨id, true⟩ :: rest)) s := by
        rw [step, get_bind_apply, if_neg hnew]
      rw [ends_bind]
      refine ((ends_outcome (w.enter (Frame.path rest) id) s).and (hw.enter _ _ _)).mono ?_ ?_
      · rintro children s₁ ⟨henter, hkept₁⟩
        rw [bind_apply_of_ok henter] at hstep
        rw [ends_bind]
        refine (ih.ends_forM (⟨id, true⟩ :: rest) children fun _ hc => hc).mono ?_ ?_
        · rintro _ s₂ ⟨hleads₂, hkept₂⟩
          have hbefore := (leads_of_step hstep).trans hleads₂
          refine ((ends_outcome (w.leave id) s₂).and (hw.leave _ _)).mono ?_ ?_
          · rintro _ s₃ ⟨hleave, hkept₃⟩
            have hstep₃ : w.step rest ⟨id, true⟩ s₂ = .ok rest s₃ := by
              rw [step, bind_apply_of_ok hleave]
              rfl
            exact ⟨hbefore.trans (leads_of_step hstep₃), (hkept₁.trans hkept₂).trans hkept₃⟩
          · rintro fault s₃ ⟨hleave, -⟩
            exact .inr (hbefore.fails (fails_of_step (bind_apply_of_error hleave _)))
        · rintro fault s₂ hfails
          exact hfails.imp_right (leads_of_step hstep).fails
      · rintro fault s₁ ⟨henter, -⟩
        exact .inr (fails_of_step (hstep.trans (bind_apply_of_error henter _)))

/-- Unless the recursion is cut short, the loop ends as it does, in any number of steps from a certain one on. -/
theorem Lasting.exists_loop_eq (hw : w.Lasting) {depth : Nat}
    (h : ∀ s', w.visit depth [] id s ≠ .error .searchExhausted s') :
    ∃ n, ∀ more, w.loop (n + more) [⟨id, false⟩] s = w.visit depth [] id s := by
  have hfollows := hw.follows depth id [] s
  cases hvisit : w.visit depth [] id s with
  | ok u s' =>
    obtain ⟨⟨n, hn⟩, -⟩ := hfollows.of_ok hvisit
    exact ⟨n, fun more => (hn more).trans (by cases more <;> rfl)⟩
  | error fault s' =>
    obtain rfl | hfails := hfollows.of_error hvisit
    · exact absurd hvisit (h s')
    · exact hfails

end Walk

end ProcessCalculus
