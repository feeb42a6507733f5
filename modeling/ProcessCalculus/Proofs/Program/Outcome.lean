import Mathlib.Data.List.Forall2
import ProcessCalculus.Proofs.Calculus.Term
import ProcessCalculus.Program.Pass

/-!
# Outcomes of passes

How a computation that may fail and that changes a state ends, from a given state. A pass that fails keeps
what it changed, so a statement about a pass has one condition for each of the two ways it can end.

* `Ends`: the conditions on the two outcomes; `ends_bind` and its companions take a computation apart.
* `after`, `answer`: the state in which a computation ends, and what it answers.
* `Ends.forM`, `Ends.mapM`, `Ends.foldlM`, `Ends.traverse`: computations that go through a list or through the
  subterms of a node. Their invariants may speak of more than the state: of anything that determines it.
-/

namespace ProcessCalculus

variable {ε σ τ α β κ : Type}

/-- From the state `s` the computation either succeeds with an answer and a state for which `post` holds, or
fails with a fault and a state for which `fail` holds. -/
def Ends (c : EStateM ε σ α) (s : σ) (post : α → σ → Prop) (fail : ε → σ → Prop) : Prop :=
  match c s with
  | .ok a t => post a t
  | .error e t => fail e t

variable {c : EStateM ε σ α} {s : σ} {post : α → σ → Prop} {fail : ε → σ → Prop}

theorem Ends.mono {post' : α → σ → Prop} {fail' : ε → σ → Prop} (h : Ends c s post fail)
    (hp : ∀ a t, post a t → post' a t) (hf : ∀ e t, fail e t → fail' e t) : Ends c s post' fail' := by
  unfold Ends at *
  cases hc : c s with
  | ok a t => exact hp a t (by rwa [hc] at h)
  | error e t => exact hf e t (by rwa [hc] at h)

theorem Ends.and {post' : α → σ → Prop} {fail' : ε → σ → Prop} (h : Ends c s post fail) (h' : Ends c s post' fail') :
    Ends c s (fun a t => post a t ∧ post' a t) fun e t => fail e t ∧ fail' e t := by
  unfold Ends at *
  cases hc : c s <;> rw [hc] at h h' <;> exact ⟨h, h'⟩

theorem Ends.of_ok {a : α} {t : σ} (h : Ends c s post fail) (hc : c s = .ok a t) : post a t := by
  unfold Ends at h
  rwa [hc] at h

theorem Ends.of_error {e : ε} {t : σ} (h : Ends c s post fail) (hc : c s = .error e t) : fail e t := by
  unfold Ends at h
  rwa [hc] at h

/-- A computation that cannot fail has an answer. -/
theorem Ends.exists_ok (h : Ends c s post fun _ _ => False) : ∃ a t, c s = .ok a t ∧ post a t := by
  unfold Ends at h
  cases hc : c s with
  | ok a t => exact ⟨a, t, rfl, by rwa [hc] at h⟩
  | error e t =>
    rw [hc] at h
    exact h.elim

/-- The state after a computation, however it ended. -/
def after (c : EStateM ε σ α) (s : σ) : σ :=
  match c s with
  | .ok _ t => t
  | .error _ t => t

theorem Ends.after {P : σ → Prop} (h : Ends c s (fun _ t => P t) fun _ t => P t) : P (after c s) := by
  unfold Ends at h
  unfold ProcessCalculus.after
  cases hc : c s with
  | ok a t => rwa [hc] at h
  | error e t => rwa [hc] at h

/-- The answer of a computation, or its fault. -/
def answer (c : EStateM ε σ α) (s : σ) : Except ε α :=
  match c s with
  | .ok a _ => .ok a
  | .error e _ => .error e

theorem answer_eq_ok_iff {a : α} : answer c s = .ok a ↔ c s = .ok a (after c s) := by
  unfold answer ProcessCalculus.after
  cases hc : c s <;> simp

theorem answer_eq_error_iff {e : ε} : answer c s = .error e ↔ c s = .error e (after c s) := by
  unfold answer ProcessCalculus.after
  cases hc : c s <;> simp

/-- A computation ends as it ends. -/
theorem ends_outcome (c : EStateM ε σ α) (s : σ) : Ends c s (fun a t => c s = .ok a t) fun e t => c s = .error e t := by
  unfold Ends
  cases c s <;> rfl

theorem get_bind_apply (f : σ → EStateM ε σ α) (s : σ) : (get >>= f) s = f s s := rfl

theorem bind_apply_of_ok {a : α} {t : σ} (hc : c s = .ok a t) (f : α → EStateM ε σ β) : (c >>= f) s = f a t := by
  simp only [bind, EStateM.bind, hc]

theorem bind_apply_of_error {e : ε} {t : σ} (hc : c s = .error e t) (f : α → EStateM ε σ β) :
    (c >>= f) s = .error e t := by
  simp only [bind, EStateM.bind, hc]

theorem ends_of_ok {a : α} {t : σ} (hc : c s = .ok a t) (h : post a t) : Ends c s post fail := by
  unfold Ends
  rwa [hc]

theorem Ends.of_eq {c' : EStateM ε σ α} (hc : c s = c' s) (h : Ends c' s post fail) : Ends c s post fail := by
  unfold Ends
  rwa [hc]

theorem ends_pure {a : α} : Ends (pure a : EStateM ε σ α) s post fail ↔ post a s := Iff.rfl

theorem ends_throw {e : ε} : Ends (throw e : EStateM ε σ α) s post fail ↔ fail e s := Iff.rfl

theorem ends_bind {f : α → EStateM ε σ β} {post : β → σ → Prop} :
    Ends (c >>= f) s post fail ↔ Ends c s (fun a t => Ends (f a) t post fail) fail := by
  simp only [Ends, bind, EStateM.bind]
  cases c s <;> rfl

theorem ends_map {f : α → β} {post : β → σ → Prop} :
    Ends (f <$> c) s post fail ↔ Ends c s (fun a t => post (f a) t) fail := by
  simp only [Ends, Functor.map, EStateM.map]
  cases c s <;> rfl

theorem ends_get {post : σ → σ → Prop} : Ends (get : EStateM ε σ σ) s post fail ↔ post s s := Iff.rfl

theorem ends_modify {f : σ → σ} {post : PUnit → σ → Prop} :
    Ends (modify f : EStateM ε σ PUnit) s post fail ↔ post ⟨⟩ (f s) := Iff.rfl

theorem ends_modifyGet {f : σ → α × σ} :
    Ends (modifyGet f : EStateM ε σ α) s post fail ↔ post (f s).1 (f s).2 := Iff.rfl

theorem ends_ofExcept_ok {a : α} {x : Except ε α} (hx : x = .ok a) :
    Ends (ofExcept x : EStateM ε σ α) s post fail ↔ post a s := by
  subst hx
  rfl

theorem ends_ofExcept_error {e : ε} {x : Except ε α} (hx : x = .error e) :
    Ends (ofExcept x : EStateM ε σ α) s post fail ↔ fail e s := by
  subst hx
  rfl

theorem except_ok_bind {a : α} {f : α → Except ε β} : (Except.ok a >>= f) = f a := rfl

section Pass

variable {p : Program} {n : σ} {fail : Fault → Program × σ → Prop}

theorem ends_program {post : Program → Program × σ → Prop} :
    Ends (Pass.program : Pass σ Program) (p, n) post fail ↔ post p (p, n) := Iff.rfl

theorem ends_notes {post : σ → Program × σ → Prop} :
    Ends (Pass.notes : Pass σ σ) (p, n) post fail ↔ post n (p, n) := Iff.rfl

theorem ends_modifyNotes {f : σ → σ} {post : Unit → Program × σ → Prop} :
    Ends (Pass.modifyNotes f) (p, n) post fail ↔ post () (p, f n) := Iff.rfl

theorem ends_write {id : ProcessId} {node : Node ProcessId} {post : Unit → Program × σ → Prop} :
    Ends (Pass.write id node) (p, n) post fail ↔ post () (p.write id node, n) := Iff.rfl

theorem ends_add {node : Node ProcessId} {post : ProcessId → Program × σ → Prop} :
    Ends (Pass.add node) (p, n) post fail ↔ post p.size ((p.add node).2, n) := Iff.rfl

theorem ends_node {id : ProcessId} {post : Node ProcessId → Program × σ → Prop} :
    Ends (Pass.node id) (p, n) post fail ↔
      (∀ node, p.node? id = some node → post node (p, n)) ∧
        (p.node? id = none → fail (.missingProcess id) (p, n)) := by
  unfold Pass.node
  rw [ends_bind, ends_program]
  cases h : p.node? id with
  | some node => rw [ends_ofExcept_ok (a := node) (by rw [Program.node, h])]; simp
  | none => rw [ends_ofExcept_error (e := .missingProcess id) (by rw [Program.node, h])]; simp

theorem ends_on {get : σ → τ} {set : τ → σ → σ} {pass : Pass τ α} {post : α → Program × σ → Prop} :
    Ends (pass.on get set) (p, n) post fail ↔
      Ends pass (p, get n) (fun a t => post a (t.1, set t.2 n)) fun e t => fail e (t.1, set t.2 n) := by
  simp only [Ends, Pass.on]
  cases pass (p, get n) <;> rfl

theorem ends_inner {p : Program} {n : τ × σ} {fail : Fault → Program × (τ × σ) → Prop} {pass : Pass σ α}
    {post : α → Program × (τ × σ) → Prop} :
    Ends pass.inner (p, n) post fail ↔
      Ends pass (p, n.2) (fun a t => post a (t.1, n.1, t.2)) fun e t => fail e (t.1, n.1, t.2) :=
  ends_on

theorem ends_outer {p : Program} {n : σ × τ} {fail : Fault → Program × (σ × τ) → Prop} {pass : Pass σ α}
    {post : α → Program × (σ × τ) → Prop} :
    Ends pass.outer (p, n) post fail ↔
      Ends pass (p, n.1) (fun a t => post a (t.1, t.2, n.2)) fun e t => fail e (t.1, t.2, n.2) :=
  ends_on

theorem program_bind_apply (f : Program → Pass σ α) : (Pass.program >>= f) (p, n) = f p (p, n) :=
  rfl

theorem notes_bind_apply (f : σ → Pass σ α) : (Pass.notes >>= f) (p, n) = f n (p, n) :=
  rfl

theorem node_bind_apply {id : ProcessId} {node : Node ProcessId} (h : p.node? id = some node)
    (f : Node ProcessId → Pass σ α) : (Pass.node id >>= f) (p, n) = f node (p, n) := by
  refine bind_apply_of_ok ?_ f
  show (ofExcept (p.node id) : Pass σ _) (p, n) = _
  rw [Program.node, h]
  rfl

theorem node_bind_apply_of_none {id : ProcessId} (h : p.node? id = none) (f : Node ProcessId → Pass σ α) :
    (Pass.node id >>= f) (p, n) = .error (.missingProcess id) (p, n) := by
  refine bind_apply_of_error ?_ f
  show (ofExcept (p.node id) : Pass σ _) (p, n) = _
  rw [Program.node, h]
  rfl

end Pass

/-- What holds of each element once it was visited, and stays true while others are visited, holds of all
elements in the end. -/
theorem Ends.forM {w : κ → σ} {I : κ → Prop} {P : κ → α → Prop} {f : α → EStateM ε σ PUnit} {l : List α}
    (h : ∀ a ∈ l, ∀ k, I k → Ends (f a) (w k)
      (fun _ t => ∃ k', w k' = t ∧ I k' ∧ P k' a ∧ ∀ b, P k b → P k' b) fail) {k : κ} (hk : I k) :
    Ends (l.forM f) (w k)
      (fun _ t => ∃ k', w k' = t ∧ I k' ∧ (∀ a ∈ l, P k' a) ∧ ∀ b, P k b → P k' b) fail := by
  induction l generalizing k with
  | nil => exact ⟨k, rfl, hk, by simp, fun _ h => h⟩
  | cons a l ih =>
    show Ends (f a >>= fun _ => l.forM f) _ _ _
    rw [ends_bind]
    refine (h a (by simp) k hk).mono ?_ fun _ _ h => h
    rintro _ _ ⟨k₁, rfl, hk₁, hPa, hP⟩
    refine (ih (fun b hb => h b (by simp [hb])) hk₁).mono ?_ fun _ _ h => h
    rintro _ _ ⟨k₂, rfl, hk₂, hl, hP'⟩
    refine ⟨k₂, rfl, hk₂, ?_, fun b hb => hP' b (hP b hb)⟩
    intro b hb
    rcases List.mem_cons.1 hb with rfl | hb
    · exact hP' b hPa
    · exact hl b hb

/-- A pass through a list, where each visit may use that the ones before it have succeeded. -/
theorem Ends.forM_prefix {w : κ → σ} {I : List α → κ → Prop}
    {f : α → EStateM ε σ PUnit} {l : List α}
    (h : ∀ front a back, l = front ++ a :: back → ∀ k, I front k →
      Ends (f a) (w k) (fun _ t => ∃ k', w k' = t ∧ I (front ++ [a]) k') fail) {k : κ} (hk : I [] k) :
    Ends (l.forM f) (w k) (fun _ t => ∃ k', w k' = t ∧ I l k') fail := by
  have hrest (back front : List α) (hl : l = front ++ back) (k : κ) (hk : I front k) :
      Ends (back.forM f) (w k) (fun _ t => ∃ k', w k' = t ∧ I l k') fail := by
    induction back generalizing front k with
    | nil =>
      rw [List.append_nil] at hl
      exact ⟨k, rfl, hl ▸ hk⟩
    | cons a back ih =>
      show Ends (f a >>= fun _ => back.forM f) _ _ _
      rw [ends_bind]
      refine (h front a back hl k hk).mono ?_ fun _ _ h => h
      rintro _ _ ⟨k', rfl, hk'⟩
      exact ih (front ++ [a]) (by rw [hl, List.append_assoc]; rfl) k' hk'
  exact hrest l [] rfl k hk

/-- A list that has gone well up to some place is gone on with from there. -/
theorem forM_append_of_ok {f : α → EStateM ε σ PUnit} {front : List α} {t : σ} (h : front.forM f s = .ok ⟨⟩ t)
    (back : List α) : (front ++ back).forM f s = back.forM f t := by
  induction front generalizing s with
  | nil =>
    cases h
    rfl
  | cons a front ih =>
    change (f a >>= fun _ => front.forM f) s = _ at h
    show (f a >>= fun _ => (front ++ back).forM f) s = _
    cases ha : f a s with
    | ok u s' =>
      rw [bind_apply_of_ok ha] at h ⊢
      exact ih h
    | error e s' =>
      rw [bind_apply_of_error ha] at h
      cases h

/-- In lists that correspond, each element has one that corresponds to it. -/
theorem forall₂_exists {R : α → β → Prop} {l : List α} {l' : List β} (h : List.Forall₂ R l l') :
    (∀ a ∈ l, ∃ b ∈ l', R a b) ∧ ∀ b ∈ l', ∃ a ∈ l, R a b := by
  induction h with
  | nil => simp
  | cons hab _ ih =>
    constructor
    · intro x hx
      rcases List.mem_cons.1 hx with rfl | hx
      · exact ⟨_, by simp, hab⟩
      · obtain ⟨y, hy, hxy⟩ := ih.1 x hx
        exact ⟨y, by simp [hy], hxy⟩
    · intro y hy
      rcases List.mem_cons.1 hy with rfl | hy
      · exact ⟨_, by simp, hab⟩
      · obtain ⟨x, hx, hxy⟩ := ih.2 y hy
        exact ⟨x, by simp [hx], hxy⟩

/-- Elements correspond to the answers found for them, if this stays true while others are visited. -/
theorem Ends.mapM {w : κ → σ} {I : κ → Prop} {R : κ → α → β → Prop} {f : α → EStateM ε σ β} {l : List α}
    (h : ∀ a ∈ l, ∀ k, I k → Ends (f a) (w k)
      (fun b t => ∃ k', w k' = t ∧ I k' ∧ R k' a b ∧ ∀ x y, R k x y → R k' x y) fail)
    {k : κ} (hk : I k) :
    Ends (l.mapM f) (w k)
      (fun r t => ∃ k', w k' = t ∧ I k' ∧ List.Forall₂ (R k') l r ∧ ∀ x y, R k x y → R k' x y) fail := by
  induction l generalizing k with
  | nil => exact ⟨k, rfl, hk, .nil, fun _ _ h => h⟩
  | cons a l ih =>
    rw [List.mapM_cons, ends_bind]
    refine (h a (by simp) k hk).mono ?_ fun _ _ h => h
    rintro b _ ⟨k₁, rfl, hk₁, hab, hR⟩
    rw [ends_bind]
    refine (ih (fun b hb => h b (by simp [hb])) hk₁).mono ?_ fun _ _ h => h
    rintro r _ ⟨k₂, rfl, hk₂, hl, hR'⟩
    exact ⟨k₂, rfl, hk₂, .cons (hR' _ _ hab) hl, fun x y hxy => hR' x y (hR x y hxy)⟩

/-- What holds of each element and of what was gathered, once the element was visited, holds of all elements in the
end, if it stays true while others are visited. -/
theorem Ends.foldlM {w : κ → σ} {I : κ → β → Prop} {P : κ → β → α → Prop} {f : β → α → EStateM ε σ β} {l : List α}
    (h : ∀ a ∈ l, ∀ k b, I k b → Ends (f b a) (w k)
      (fun b' t => ∃ k', w k' = t ∧ I k' b' ∧ P k' b' a ∧ ∀ x, P k b x → P k' b' x) fail)
    {k : κ} {b : β} (hk : I k b) :
    Ends (l.foldlM f b) (w k)
      (fun b' t => ∃ k', w k' = t ∧ I k' b' ∧ (∀ a ∈ l, P k' b' a) ∧ ∀ x, P k b x → P k' b' x) fail := by
  induction l generalizing k b with
  | nil => exact ⟨k, rfl, hk, by simp, fun _ h => h⟩
  | cons a l ih =>
    rw [List.foldlM_cons, ends_bind]
    refine (h a (by simp) k b hk).mono ?_ fun _ _ h => h
    rintro b₁ _ ⟨k₁, rfl, hk₁, ha, hP⟩
    refine (ih (fun x hx => h x (by simp [hx])) hk₁).mono ?_ fun _ _ h => h
    rintro b₂ _ ⟨k₂, rfl, hk₂, hl, hP'⟩
    refine ⟨k₂, rfl, hk₂, fun x hx => ?_, fun x hx => hP' x (hP x hx)⟩
    rcases List.mem_cons.1 hx with rfl | hx
    · exact hP' x ha
    · exact hl x hx

private theorem ends_one {w : κ → σ} {I : List α → κ → Prop} {R : κ → α → β → Prop} {f : α → EStateM ε σ β}
    {node : Node α} {c : α} {k : κ} {mk : β → Node β}
    (h : Ends (f c) (w k)
      (fun d t => ∃ k', w k' = t ∧ I [c] k' ∧ R k' c d ∧ ∀ x y, R k x y → R k' x y) fail)
    (hmk : ∀ k' d, R k' c d → node.Related (R k') (mk d)) :
    Ends (do let d ← f c; pure (mk d)) (w k)
      (fun node' t => ∃ k', w k' = t ∧ I [c] k' ∧ node.Related (R k') node' ∧ ∀ x y, R k x y → R k' x y)
      fail := by
  rw [ends_bind]
  refine h.mono ?_ fun _ _ h => h
  rintro d _ ⟨k', rfl, hk', hd, hR⟩
  exact ⟨k', rfl, hk', hmk k' d hd, hR⟩

private theorem ends_two {w : κ → σ} {I : List α → κ → Prop} {R : κ → α → β → Prop} {f : α → EStateM ε σ β}
    {node : Node α} {l r : α} {k : κ} (hk : I [] k) {mk : β → β → Node β}
    (h : ∀ front c back, [l, r] = front ++ c :: back → ∀ k, I front k → Ends (f c) (w k)
      (fun d t => ∃ k', w k' = t ∧ I (front ++ [c]) k' ∧ R k' c d ∧ ∀ x y, R k x y → R k' x y) fail)
    (hmk : ∀ k' l' r', R k' l l' → R k' r r' → node.Related (R k') (mk l' r')) :
    Ends (do let l' ← f l; let r' ← f r; pure (mk l' r')) (w k)
      (fun node' t => ∃ k', w k' = t ∧ I [l, r] k' ∧ node.Related (R k') node' ∧ ∀ x y, R k x y → R k' x y)
      fail := by
  rw [ends_bind]
  refine (h [] l [r] rfl k hk).mono ?_ fun _ _ h => h
  rintro l' _ ⟨k₁, rfl, hk₁, hl, hR⟩
  rw [ends_bind]
  refine (h [l] r [] rfl k₁ hk₁).mono ?_ fun _ _ h => h
  rintro r' _ ⟨k₂, rfl, hk₂, hr, hR'⟩
  exact ⟨k₂, rfl, hk₂, hmk k₂ l' r' (hR' _ _ hl) hr, fun x y hxy => hR' x y (hR x y hxy)⟩

/-- Visiting the subterms of a node, where each visit answers with something related to the subterm, and may use that
the ones before it have succeeded. -/
theorem Ends.traverse_prefix {w : κ → σ} {I : List α → κ → Prop} {R : κ → α → β → Prop} {f : α → EStateM ε σ β}
    {node : Node α}
    (h : ∀ front c back, node.children = front ++ c :: back → ∀ k, I front k → Ends (f c) (w k)
      (fun d t => ∃ k', w k' = t ∧ I (front ++ [c]) k' ∧ R k' c d ∧ ∀ x y, R k x y → R k' x y) fail)
    {k : κ} (hk : I [] k) :
    Ends (node.traverse f) (w k)
      (fun node' t => ∃ k', w k' = t ∧ I node.children k' ∧ node.Related (R k') node' ∧ ∀ x y, R k x y → R k' x y)
      fail := by
  cases node with
  | null => exact ⟨k, rfl, hk, .null, fun _ _ h => h⟩
  | named name body => exact ⟨k, rfl, hk, .named name body, fun _ _ h => h⟩
  | sum l r => exact ends_two hk h fun _ _ _ hl hr => .sum hl hr
  | parallel l r => exact ends_two hk h fun _ _ _ hl hr => .parallel hl hr
  | act a p => exact ends_one (h [] p [] rfl k hk) fun _ _ hp => .act a hp
  | restrict p labels => exact ends_one (h [] p [] rfl k hk) fun _ _ hp => .restrict hp labels
  | rename p renames => exact ends_one (h [] p [] rfl k hk) fun _ _ hp => .rename hp renames
  | delay d p => exact ends_one (h [] p [] rfl k hk) fun _ _ hp => .delay d hp

/-- Visiting the subterms of a node, where no visit needs to know which ones came before it. -/
theorem Ends.traverse {w : κ → σ} {I : κ → Prop} {R : κ → α → β → Prop} {f : α → EStateM ε σ β}
    {node : Node α}
    (h : ∀ c ∈ node.children, ∀ k, I k → Ends (f c) (w k)
      (fun d t => ∃ k', w k' = t ∧ I k' ∧ R k' c d ∧ ∀ x y, R k x y → R k' x y) fail)
    {k : κ} (hk : I k) :
    Ends (node.traverse f) (w k)
      (fun node' t => ∃ k', w k' = t ∧ I k' ∧ node.Related (R k') node' ∧ ∀ x y, R k x y → R k' x y)
      fail :=
  Ends.traverse_prefix (I := fun _ => I) (fun front c back hsplit => h c (by simp [hsplit])) hk

end ProcessCalculus
