import Mathlib.Logic.Relation
import ProcessCalculus.Proofs.Program.Stack

/-!
# Folds over terms with a stack

A fold makes something of every process out of what it makes of its subterms, and keeps a note of it, so that this is
made once. By recursion it takes the node of a process when it meets it, and concludes when it is back from the
subterms. The loop over a stack of frames looks up everything again at that point: whether a note was made meanwhile,
which node it is, and what the notes say of the subterms.

Nothing has changed by then. A process of which a note was made meanwhile would be its own subterm; but a recursion
that comes to its end makes no notes of processes that go round in a circle.

* `Fold`, `Fold.visit`, `Fold.run`: a fold, by recursion and by the loop.
* `Fold.Records`: what is asked of the notes.
* `Fold.Spread`: of which processes a part of a fold makes notes.
* `Fold.Records.exists_run_eq`: the loop ends as the recursion.
-/

namespace ProcessCalculus

open Relation

variable {σ α : Type}

/-- A fold over terms with notes of type `σ`: what they say of processes, how nodes are read, and how the result for a
process is made from the node over the results for its subterms. -/
structure Fold (σ α : Type) where
  known? : σ → ProcessId → Option α
  node? : σ → ProcessId → Option (Node ProcessId)
  conclude : ProcessId → Node α → EStateM Fault σ α

namespace Fold

section

variable (f : Fold σ α)

/-- The fold over the term under an identifier, at most `depth` levels deep. -/
def visit : (depth : Nat) → ProcessId → EStateM Fault σ α
  | 0, _ => throw .searchExhausted
  | depth + 1, id => do
    if let some a := f.known? (← get) id then
      return a
    match f.node? (← get) id with
    | none => throw (.missingProcess id)
    | some node => f.conclude id (← node.traverse (visit depth))

/-- What the notes say of a process. -/
def lookup (id : ProcessId) : EStateM Fault σ α := do
  match f.known? (← get) id with
  | some a => return a
  | none => throw (.missingProcess id)

/-- The fold as a walk. -/
def walk : Walk σ where
  isDone s id := (f.known? s id).isSome
  enter _ id := do
    match f.node? (← get) id with
    | none => throw (.missingProcess id)
    | some node => return node.children
  leave id := do
    if (f.known? (← get) id).isSome then
      return
    match f.node? (← get) id with
    | none => throw (.missingProcess id)
    | some node =>
      let _ ← f.conclude id (← node.traverse f.lookup)

/-- The fold by the loop, in at most `steps` steps. -/
def run (steps : Nat) (id : ProcessId) : EStateM Fault σ α := do
  f.walk.loop steps [⟨id, false⟩]
  f.lookup id

/-- A conclusion keeps what is known and which nodes are to be met. Among them the process itself becomes known and no
other. -/
structure Concludes (id : ProcessId) (s s' : σ) : Prop where
  kept {c : ProcessId} {a : α} : f.known? s c = some a → f.known? s' c = some a
  node?_eq {c : ProcessId} : f.known? s' c = none → f.node? s' c = f.node? s c
  unknown {c : ProcessId} : c ≠ id → f.node? s c ≠ none → f.known? s c = none → f.known? s' c = none

/-- What is asked of the notes. Where `I` holds of them a conclusion is noted and does nothing else, and it never makes
known processes unknown. -/
structure Records (I : σ → Prop) : Prop where
  ends {s : σ} {id : ProcessId} (node : Node α) : I s → f.known? s id = none → f.node? s id ≠ none →
    Ends (f.conclude id node) s (fun a s' => I s' ∧ f.known? s' id = some a ∧ f.Concludes id s s') fun _ _ => True
  lasting (id : ProcessId) (node : Node α) (s : σ) :
    Ends (f.conclude id node) s (fun _ => f.walk.Kept s) fun _ _ => True

/-- The process is not known, and the other one is a subterm of it. -/
def Edge (s : σ) (x y : ProcessId) : Prop :=
  f.known? s x = none ∧ ∃ node, f.node? s x = some node ∧ y ∈ node.children

/-- What a part of a fold does that starts from processes with the property `R`. Whatever becomes known is reached from
these through unknown processes. And no process becomes known that goes round in circles of unknown ones. -/
structure Spread (R : ProcessId → Prop) (s s' : σ) : Prop where
  kept {c : ProcessId} {a : α} : f.known? s c = some a → f.known? s' c = some a
  node?_eq {c : ProcessId} : f.known? s' c = none → f.node? s' c = f.node? s c
  reached {y : ProcessId} : f.node? s y ≠ none → f.known? s y = none → f.known? s' y ≠ none →
    ∃ x, R x ∧ ReflTransGen (f.Edge s) x y
  unknown {C : ProcessId → Prop} : (∀ x, C x → ∃ y, C y ∧ f.Edge s x y) → ∀ x, C x → f.known? s' x = none

end

variable {f : Fold σ α} {I : σ → Prop} {R R' : ProcessId → Prop} {s s' s'' : σ} {id : ProcessId}
  {node : Node ProcessId}

/-- What is unknown after others became known was unknown before. -/
private theorem eq_none_of_kept {c : ProcessId} (hkept : ∀ {a : α}, f.known? s c = some a → f.known? s' c = some a)
    (hc : f.known? s' c = none) : f.known? s c = none := by
  cases hb : f.known? s c with
  | none => rfl
  | some a =>
    rw [hkept hb] at hc
    cases hc

/-- A conclusion for a new process, where nothing else is noted. -/
theorem concludes_of_entry {a : α} (hnew : f.known? s id = none)
    (hknown : ∀ c, f.known? s' c = if id = c then some a else f.known? s c)
    (hnode : ∀ c, id ≠ c → f.node? s' c = f.node? s c) : f.known? s' id = some a ∧ f.Concludes id s s' := by
  have hself : f.known? s' id = some a := by rw [hknown, if_pos rfl]
  refine ⟨hself, ?_, ?_, ?_⟩
  · intro c b hc
    rw [hknown, if_neg ?_, hc]
    rintro rfl
    rw [hnew] at hc
    cases hc
  · intro c hc
    refine hnode c ?_
    rintro rfl
    rw [hself] at hc
    cases hc
  · intro c hne _ hc
    rw [hknown, if_neg hne.symm, hc]

theorem kept_of_entry {a : α} (hknown : ∀ c, f.known? s' c = if id = c then some a else f.known? s c) :
    f.walk.Kept s s' := by
  intro c hc
  show (f.known? s' c).isSome = true
  rw [hknown]
  split
  · rfl
  · exact hc

namespace Spread

theorem refl (f : Fold σ α) (R : ProcessId → Prop) (s : σ) : f.Spread R s s where
  kept hc := hc
  node?_eq _ := rfl
  reached _ hy hy' := absurd hy hy'
  unknown hC x hx := by
    obtain ⟨y, -, hxy⟩ := hC x hx
    exact hxy.1

theorem mono (h : f.Spread R s s') (hR : ∀ x, R x → R' x) : f.Spread R' s s' where
  kept := h.kept
  node?_eq := h.node?_eq
  reached hnode hy hy' := (h.reached hnode hy hy').imp fun _ hx => ⟨hR _ hx.1, hx.2⟩
  unknown := h.unknown

theorem known?_eq_none (h : f.Spread R s s') {c : ProcessId} (hc : f.known? s' c = none) : f.known? s c = none :=
  eq_none_of_kept h.kept hc

theorem edge (h : f.Spread R s s') {x y : ProcessId} (hxy : f.Edge s' x y) : f.Edge s x y := by
  obtain ⟨hx, node, hnode, hy⟩ := hxy
  exact ⟨h.known?_eq_none hx, node, (h.node?_eq hx).symm.trans hnode, hy⟩

theorem trans (h : f.Spread R s s') (h' : f.Spread R s' s'') : f.Spread R s s'' where
  kept hc := h'.kept (h.kept hc)
  node?_eq hc := (h'.node?_eq hc).trans (h.node?_eq (h'.known?_eq_none hc))
  reached {y} hnode hy hy' := by
    cases hmid : f.known? s' y with
    | some a => exact h.reached hnode hy (by simp [hmid])
    | none =>
      obtain ⟨x, hx, hreach⟩ := h'.reached (by rwa [h.node?_eq hmid]) hmid hy'
      exact ⟨x, hx, ReflTransGen.mono (fun _ _ => h.edge) _ _ hreach⟩
  unknown {C} hC x hx := by
    refine h'.unknown (C := C) (fun y hy => ?_) x hx
    -- the circle is still one of unknown processes
    have hmid := h.unknown hC y hy
    obtain ⟨z, hz, -, node, hnode, hmem⟩ := hC y hy
    exact ⟨z, hz, hmid, node, (h.node?_eq hmid).trans hnode, hmem⟩

/-- A process is not known before its subterms are: if it were one of those that they reach, it would go round in a
circle. -/
theorem known?_eq_none_of_children (h : f.Spread (· ∈ node.children) s s') (hnew : f.known? s id = none)
    (hnode : f.node? s id = some node) : f.known? s' id = none := by
  by_contra hknown
  obtain ⟨c, hc, hreach⟩ := h.reached (by simp [hnode]) hnew hknown
  have hcycle : TransGen (f.Edge s) id id := .head' ⟨hnew, node, hnode, hc⟩ hreach
  refine hknown (h.unknown (C := fun x => TransGen (f.Edge s) id x ∧ TransGen (f.Edge s) x id) ?_ id ⟨hcycle, hcycle⟩)
  rintro x ⟨hfrom, hto⟩
  obtain ⟨y, hxy, hback⟩ := TransGen.head'_iff.1 hto
  exact ⟨y, ⟨hfrom.tail hxy, .trans_right hback hcycle⟩, hxy⟩

/-- The subterms of a process and then the process itself become known. -/
theorem conclude (h : f.Spread (· ∈ node.children) s s') (hnew : f.known? s id = none)
    (hnode : f.node? s id = some node) (hchildren : ∀ c ∈ node.children, f.known? s' c ≠ none)
    (hlast : f.Concludes id s' s'') : f.Spread (· = id) s s'' where
  kept hc := hlast.kept (h.kept hc)
  node?_eq {c} hc := by
    have hmid : f.known? s' c = none := eq_none_of_kept hlast.kept hc
    exact (hlast.node?_eq hc).trans (h.node?_eq hmid)
  reached {y} hy hold hknown := by
    refine ⟨id, rfl, ?_⟩
    by_cases hid : y = id
    · rw [hid]
    · by_cases hmid : f.known? s' y = none
      · exact absurd (hlast.unknown hid (by rwa [h.node?_eq hmid]) hmid) hknown
      · obtain ⟨c, hc, hreach⟩ := h.reached hy hold hmid
        exact .head ⟨hnew, node, hnode, hc⟩ hreach
  unknown {C} hC x hx := by
    have hmid := h.unknown hC
    have hid : ¬ C id := by
      intro hself
      obtain ⟨c, hc, -, node', hnode', hmem⟩ := hC id hself
      rw [hnode, Option.some.injEq] at hnode'
      subst hnode'
      exact hchildren c hmem (hmid c hc)
    obtain ⟨-, -, -, node', hnode', -⟩ := hC x hx
    refine hlast.unknown (fun heq => hid (heq ▸ hx)) ?_ (hmid x hx)
    rw [h.node?_eq (hmid x hx), hnode']
    exact Option.some_ne_none _

end Spread

theorem visit_of_known {a : α} (h : f.known? s id = some a) (depth : Nat) : f.visit (depth + 1) id s = .ok a s := by
  rw [visit, get_bind_apply, h]
  rfl

theorem visit_of_missing (hnew : f.known? s id = none) (hnode : f.node? s id = none) (depth : Nat) :
    f.visit (depth + 1) id s = .error (.missingProcess id) s := by
  rw [visit, get_bind_apply, hnew]
  dsimp only
  rw [get_bind_apply, hnode]
  rfl

theorem visit_of_node (hnew : f.known? s id = none) (hnode : f.node? s id = some node) (depth : Nat) :
    f.visit (depth + 1) id s = (node.traverse (f.visit depth) >>= f.conclude id) s := by
  rw [visit, get_bind_apply, hnew]
  dsimp only
  rw [get_bind_apply, hnode]

theorem lookup_eq {a : α} (h : f.known? s id = some a) : f.lookup id s = .ok a s := by
  rw [lookup, get_bind_apply, h]
  rfl

theorem traverse_lookup {node' : Node α} (h : node.Related (fun c a => f.known? s c = some a) node') :
    node.traverse f.lookup s = .ok node' s := by
  cases h with
  | null => rfl
  | named name body => rfl
  | sum hl hr =>
    rw [Node.traverse, bind_apply_of_ok (lookup_eq hl), bind_apply_of_ok (lookup_eq hr)]
    rfl
  | parallel hl hr =>
    rw [Node.traverse, bind_apply_of_ok (lookup_eq hl), bind_apply_of_ok (lookup_eq hr)]
    rfl
  | act a hp | restrict hp labels | rename hp renames | delay d hp =>
    rw [Node.traverse, bind_apply_of_ok (lookup_eq hp)]
    rfl

theorem enter_eq (h : f.node? s id = some node) (path : List ProcessId) :
    f.walk.enter path id s = .ok node.children s := by
  unfold walk
  dsimp only
  rw [get_bind_apply, h]
  rfl

theorem enter_eq_of_none (h : f.node? s id = none) (path : List ProcessId) :
    f.walk.enter path id s = .error (.missingProcess id) s := by
  unfold walk
  dsimp only
  rw [get_bind_apply, h]
  rfl

/-- When the subterms are done, the loop concludes as the recursion does. -/
theorem leave_eq {node' : Node α} (hnew : f.known? s id = none) (hnode : f.node? s id = some node)
    (h : node.Related (fun c a => f.known? s c = some a) node') :
    f.walk.leave id s = (f.conclude id node' >>= fun _ => pure ()) s := by
  unfold walk
  dsimp only
  rw [get_bind_apply, hnew, if_neg (by simp), get_bind_apply, hnode]
  exact bind_apply_of_ok (traverse_lookup h) _

/-- Looking up changes nothing. -/
private theorem ends_traverse_lookup (f : Fold σ α) (node : Node ProcessId) (s : σ) :
    Ends (node.traverse f.lookup) s (fun _ s' => s' = s) fun _ _ => True := by
  refine (Ends.traverse (w := fun s' => s') (I := (· = s)) (R := fun _ _ _ => True) (fun c _ s' hs' => ?_) rfl).mono ?_
    fun _ _ h => h
  · unfold lookup
    rw [ends_bind, ends_get]
    split
    · exact ⟨s', rfl, hs', trivial, fun _ _ h => h⟩
    · trivial
  · rintro _ _ ⟨s', rfl, hs', -⟩
    exact hs'

namespace Records

theorem lasting_walk (hf : f.Records I) : f.walk.Lasting where
  enter path id s := by
    show Ends (get >>= fun s => _) s _ _
    rw [ends_bind, ends_get]
    split
    · trivial
    · exact fun _ hc => hc
  leave id s := by
    show Ends (get >>= fun s => _) s _ _
    rw [ends_bind, ends_get]
    split
    · exact fun _ hc => hc
    · rw [ends_bind, ends_get]
      split
      · trivial
      · rename_i node _
        rw [ends_bind]
        refine (ends_traverse_lookup f node s).mono ?_ fun _ _ h => h
        rintro node' _ rfl
        rw [ends_bind]
        exact hf.lasting id node' _

/-- What the recursion does with subterms, the walk does with them one after the other. -/
private theorem ends_children {depth : Nat}
    (hvisit : ∀ (path : List ProcessId) {s : σ} {id : ProcessId}, I s → Ends (f.visit depth id) s
      (fun a s' => (I s' ∧ f.Spread (· = id) s s' ∧ f.known? s' id = some a) ∧ f.walk.visit depth path id s = .ok () s')
      fun fault s' => fault = .searchExhausted ∨ f.walk.visit depth path id s = .error fault s')
    (path : List ProcessId) (hs : I s) :
    Ends (node.traverse (f.visit depth)) s
      (fun node' s' => (I s' ∧ f.Spread (· ∈ node.children) s s' ∧
          node.children.forM (f.walk.visit depth path) s = .ok () s') ∧
        node.Related (fun c a => f.known? s' c = some a) node')
      fun fault s' => fault = .searchExhausted ∨ node.children.forM (f.walk.visit depth path) s = .error fault s' := by
  refine (Ends.traverse_prefix (w := fun s' => s')
    (I := fun front s' => I s' ∧ f.Spread (· ∈ node.children) s s' ∧
      front.forM (f.walk.visit depth path) s = .ok () s')
    (R := fun s' c a => f.known? s' c = some a) ?_ ⟨hs, .refl f _ s, rfl⟩).mono ?_ fun _ _ h => h
  · rintro front c back hsplit s₁ ⟨hs₁, hspread, hfront⟩
    have hc : c ∈ node.children := by simp [hsplit]
    refine (hvisit path hs₁).mono ?_ ?_
    · rintro a s₂ ⟨⟨hs₂, hspread', ha⟩, hwalk⟩
      refine ⟨s₂, rfl, ⟨hs₂, hspread.trans (hspread'.mono fun x hx => hx ▸ hc), ?_⟩, ha, fun _ _ => hspread'.kept⟩
      rw [forM_append_of_ok hfront]
      exact bind_apply_of_ok hwalk _
    · rintro fault s₂ hfails
      refine hfails.imp_right fun hwalk => ?_
      rw [hsplit, forM_append_of_ok hfront]
      exact bind_apply_of_error hwalk _
  · rintro node' _ ⟨s', rfl, hfolded, hrel, -⟩
    exact ⟨hfolded, hrel⟩

/-- What the recursion does, the walk does: by induction on the depth, with the subterms visited so far. -/
private theorem ends_visit (hf : f.Records I) {depth : Nat} (path : List ProcessId) (hs : I s) :
    Ends (f.visit depth id) s
      (fun a s' => (I s' ∧ f.Spread (· = id) s s' ∧ f.known? s' id = some a) ∧ f.walk.visit depth path id s = .ok () s')
      fun fault s' => fault = .searchExhausted ∨ f.walk.visit depth path id s = .error fault s' := by
  induction depth generalizing path id s with
  | zero => exact .inl rfl
  | succ depth ih =>
    unfold visit Walk.visit
    rw [ends_bind, ends_get, get_bind_apply]
    split
    · rename_i a ha
      rw [if_pos (show f.walk.isDone s id = true by simp [walk, ha])]
      exact ⟨⟨hs, .refl f _ s, ha⟩, rfl⟩
    · rename_i hnone
      have hnew : f.known? s id = none := Option.eq_none_iff_forall_ne_some.2 hnone
      rw [if_neg (show ¬ f.walk.isDone s id = true by simp [walk, hnew]), ends_bind, ends_get]
      cases hnode : f.node? s id with
      | none => exact .inr (bind_apply_of_error (enter_eq_of_none hnode path) _)
      | some node =>
        rw [bind_apply_of_ok (enter_eq hnode path)]
        dsimp only
        rw [ends_bind]
        refine (ends_children (fun path _ _ hs => ih path hs) (id :: path) hs).mono ?_ ?_
        · rintro node' s₁ ⟨⟨hs₁, hspread, hforM⟩, hrel⟩
          -- no note was made of the process meanwhile, so the loop does not pass it over
          have hnew₁ := hspread.known?_eq_none_of_children hnew hnode
          have hnode₁ : f.node? s₁ id = some node := (hspread.node?_eq hnew₁).trans hnode
          have hknown : ∀ c ∈ node.children, f.known? s₁ c ≠ none := by
            intro c hc
            obtain ⟨a, -, ha⟩ := hrel.exists_of_mem_children_left hc
            simp [ha]
          rw [bind_apply_of_ok hforM, leave_eq hnew₁ hnode₁ hrel]
          refine ((ends_outcome (f.conclude id node') s₁).and
            (hf.ends node' hs₁ hnew₁ (by simp [hnode₁]))).mono ?_ ?_
          · rintro a s₂ ⟨hconclude, hs₂, ha, hlast⟩
            exact ⟨⟨hs₂, hspread.conclude hnew hnode hknown hlast, ha⟩, bind_apply_of_ok hconclude _⟩
          · rintro fault s₂ ⟨hconclude, -⟩
            exact .inr (bind_apply_of_error hconclude _)
        · rintro fault s₁ hfails
          exact hfails.imp_right fun hforM => bind_apply_of_error hforM _

/-- Unless the recursion is cut short, the loop ends as it does, in any number of steps from a certain one on. -/
theorem exists_run_eq (hf : f.Records I) (hs : I s) {depth : Nat}
    (h : ∀ s', f.visit depth id s ≠ .error .searchExhausted s') :
    ∃ n, ∀ more, f.run (n + more) id s = f.visit depth id s := by
  have hvisit : Ends (f.visit depth id) s _ _ := hf.ends_visit [] hs
  cases hfold : f.visit depth id s with
  | ok a s' =>
    obtain ⟨⟨-, -, ha⟩, hwalk⟩ := hvisit.of_ok hfold
    have hends (t : σ) : f.walk.visit depth [] id s ≠ .error .searchExhausted t := by
      rw [hwalk]
      exact nofun
    obtain ⟨n, hn⟩ := hf.lasting_walk.exists_loop_eq hends
    refine ⟨n, fun more => ?_⟩
    rw [run, bind_apply_of_ok ((hn more).trans hwalk)]
    exact lookup_eq ha
  | error fault s' =>
    have hfault : fault ≠ .searchExhausted := by
      rintro rfl
      exact h s' hfold
    have hwalk := (hvisit.of_error hfold).resolve_left hfault
    have hends (t : σ) : f.walk.visit depth [] id s ≠ .error .searchExhausted t := by
      rw [hwalk]
      rintro heq
      cases heq
      exact hfault rfl
    obtain ⟨n, hn⟩ := hf.lasting_walk.exists_loop_eq hends
    exact ⟨n, fun more => bind_apply_of_error ((hn more).trans hwalk) _⟩

end Records

end Fold

end ProcessCalculus
