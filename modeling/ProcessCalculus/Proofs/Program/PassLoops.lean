import ProcessCalculus.Program.Digest
import ProcessCalculus.Proofs.Program.Folds
import ProcessCalculus.Proofs.Program.GuardednessSearch
import ProcessCalculus.Proofs.Sharing.Canonical
import ProcessCalculus.Proofs.Simplification.Forms

/-!
# The passes by loops

The search for unguarded processes is a walk. Digests, sharing and simplification are folds, which conclude with what
the pass notes of a process. So a loop over a stack of frames makes each of them, and it ends as the recursion does.

Simplification also notes forms of nodes that it adds. These are new, so none of them is one that waits for others.

* `Guardedness.walk`, `Guardedness.exists_loop_eq`: the search. It always comes to its end.
* `HashFunction.fold`, `HashFunction.exists_run_eq`: digests.
* `Fold.ofPass`, `Fold.visit_ofPass`: passes that note what they answer.
* `Sharing.fold`, `Sharing.exists_run_eq`: sharing.
* `Simplification.fold`, `Simplification.exists_run_eq`: simplification.
-/

namespace ProcessCalculus

namespace Guardedness

variable {p : Program}

/-- The search as a walk. -/
def walk (p : Program) : Walk Marks where
  isDone marks id := marks.contains id
  enter _ id := do
    modify (·.insert id .searching)
    match p.node? id with
    | none => throw (.missingProcess id)
    | some node => return node.unguardedChildren
  leave id := do
    match p.node? id with
    | none => throw (.missingProcess id)
    | some node =>
      let marks ← get
      let mark := if node.unguardedChildren.any marks.suspects then .unguarded else .guarded
      set (marks.insert id mark)

theorem visit_walk (p : Program) (depth : Nat) (path : List ProcessId) : (walk p).visit depth path = visit p depth := by
  induction depth generalizing path with
  | zero => rfl
  | succ depth ih =>
    funext id marks
    unfold Walk.visit visit
    rw [get_bind_apply, get_bind_apply, ih]
    by_cases hdone : marks.contains id = true
    · rw [if_pos hdone, if_pos (show (walk p).isDone marks id = true from hdone)]
    · rw [if_neg hdone, if_neg (show ¬ (walk p).isDone marks id = true from hdone)]
      dsimp only [walk]
      cases p.node? id <;> rfl

private theorem kept_insert (marks : Marks) (id : ProcessId) (mark : Mark) :
    (walk p).Kept marks (marks.insert id mark) := by
  intro c hc
  simp only [walk] at hc ⊢
  rw [Std.TreeMap.contains_insert, hc, Bool.or_true]

theorem lasting_walk (p : Program) : (walk p).Lasting where
  enter path id marks := by
    simp only [walk]
    rw [ends_bind, ends_modify]
    split
    · trivial
    · exact kept_insert marks id _
  leave id marks := by
    simp only [walk]
    split
    · trivial
    · exact kept_insert marks id _

/-- The search and the loop mark the same processes, or fail at the same reference. -/
theorem exists_loop_eq (p : Program) (id : ProcessId) (marks : Marks) :
    ∃ n, ∀ more, (walk p).loop (n + more) [⟨id, false⟩] marks = visit p p.depthBound id marks := by
  rw [← visit_walk p p.depthBound []]
  refine (lasting_walk p).exists_loop_eq fun marks' hex => ?_
  rw [visit_walk] at hex
  have hdeep : unmarked p marks < p.depthBound := Nat.lt_succ_of_le (unmarked_le_size p marks)
  obtain ⟨x, hfault, -⟩ := ((ends_visit hdeep).of_error hex).exists_missing
  cases hfault

end Guardedness

namespace HashFunction

open Digest

/-- The digest of a process over those of its subterms is noted. -/
def conclude (hash : HashFunction) (id : ProcessId) (node : Node Digest) : EStateM Fault Known Digest := do
  let digest := hash.ofNode node
  modify (·.insert id digest)
  return digest

/-- The digests as a fold. -/
def fold (hash : HashFunction) (p : Program) : Fold Known Digest where
  known? known id := known[id]?
  node? _ id := p.node? id
  conclude := hash.conclude

theorem visit_fold (hash : HashFunction) (p : Program) (depth : Nat) :
    (hash.fold p).visit depth = hash.visit p depth := by
  induction depth with
  | zero => rfl
  | succ depth ih =>
    funext id known
    unfold Fold.visit visit
    rw [ih, get_bind_apply, get_bind_apply]
    dsimp only [fold]
    cases known[id]? with
    | some digest => rfl
    | none => cases p.node? id <;> rfl

theorem records_fold (hash : HashFunction) (p : Program) : (hash.fold p).Records fun _ => True where
  ends {known id} node _ hnew _ := by
    show Ends (hash.conclude id node) _ _ _
    unfold conclude
    rw [ends_bind, ends_modify, ends_pure]
    exact ⟨trivial, Fold.concludes_of_entry hnew (fun c => Table.getElem?_insert known id c _) fun _ _ => rfl⟩
  lasting id node known := by
    show Ends (hash.conclude id node) _ _ _
    unfold conclude
    rw [ends_bind, ends_modify, ends_pure]
    exact Fold.kept_of_entry fun c => Table.getElem?_insert known id c _

/-- The loop has the same digest, or fails at the same reference. -/
theorem exists_run_eq (hash : HashFunction) {p : Program} {id : ProcessId} {known : Known}
    (h : ∀ known', hash.ofTerm p id known ≠ .error .searchExhausted known') :
    ∃ n, ∀ more, (hash.fold p).run (n + more) id known = hash.ofTerm p id known := by
  unfold ofTerm at h ⊢
  rw [← visit_fold] at h ⊢
  exact (records_fold hash p).exists_run_eq trivial h

end HashFunction

/-! ### Passes over a program -/

namespace Fold

variable {σ α : Type}

/-- A pass as a fold. What it notes of processes is a part of its notes, and it may change the nodes of the program. -/
def ofPass (known? : σ → ProcessId → Option α) (conclude : ProcessId → Node α → Pass σ α) : Fold (Program × σ) α where
  known? t id := known? t.2 id
  node? t id := t.1.node? id
  conclude := conclude

/-- A recursive pass is the fold, if it looks for a note, then for the node, and concludes after the subterms. -/
theorem visit_ofPass {known? : σ → ProcessId → Option α} {conclude : ProcessId → Node α → Pass σ α}
    {visit : Nat → ProcessId → Pass σ α} (hzero : ∀ id, visit 0 id = throw .searchExhausted)
    (hsucc : ∀ depth id, visit (depth + 1) id = do
      if let some a := known? (← Pass.notes) id then
        return a
      let node ← Pass.node id
      conclude id (← node.traverse (visit depth))) (depth : Nat) :
    (ofPass known? conclude).visit depth = visit depth := by
  induction depth with
  | zero =>
    funext id
    exact (hzero id).symm
  | succ depth ih =>
    funext id ⟨p, n⟩
    rw [hsucc, notes_bind_apply]
    cases hknown : known? n id with
    | some a => exact visit_of_known hknown depth
    | none =>
      cases hnode : p.node? id with
      | none => exact (visit_of_missing hknown hnode depth).trans (node_bind_apply_of_none hnode _).symm
      | some node =>
        refine (visit_of_node hknown hnode depth).trans ?_
        dsimp only
        rw [ih, node_bind_apply hnode]
        rfl

end Fold

namespace Sharing

/-- A node is written over canonical subterms and entered. -/
def conclude (id : ProcessId) (node : Node ProcessId) : Pass Sharing ProcessId := do
  Pass.write id node
  Pass.modifyNotes (enter id node)
  return ((← Pass.notes).canonical? id).getD id

/-- Sharing as a fold. -/
def fold : Fold (Program × Sharing) ProcessId :=
  .ofPass canonical? conclude

theorem visit_fold (depth : Nat) : fold.visit depth = visit depth := by
  refine Fold.visit_ofPass (fun _ => rfl) (fun depth id => ?_) depth
  funext ⟨p, s⟩
  rw [visit, notes_bind_apply, notes_bind_apply]
  cases s.canonical? id <;> rfl

theorem records_fold : fold.Records fun _ => True where
  ends {t id} node _ hnew hnode := by
    obtain ⟨p, s⟩ := t
    have hcanonical := canonical?_enter id node s
    show Ends (conclude id node) _ _ _
    unfold conclude
    rw [ends_bind, ends_write, ends_bind, ends_modifyNotes, ends_bind, ends_notes, ends_pure, hcanonical, if_pos rfl]
    have hothers (c : ProcessId) (hne : id ≠ c) : (p.write id node).node? c = p.node? c :=
      (Program.node?_write p id node c).trans (if_neg hne)
    exact ⟨trivial, Fold.concludes_of_entry hnew hcanonical hothers⟩
  lasting id node t := by
    obtain ⟨p, s⟩ := t
    show Ends (conclude id node) _ _ _
    unfold conclude
    rw [ends_bind, ends_write, ends_bind, ends_modifyNotes, ends_bind, ends_notes, ends_pure]
    exact Fold.kept_of_entry (canonical?_enter id node s)

/-- The loop answers the same canonical node and leaves the same program and notes. -/
theorem exists_run_eq {t : Program × Sharing} {id : ProcessId}
    (h : ∀ t', share id t ≠ .error .searchExhausted t') : ∃ n, ∀ more, fold.run (n + more) id t = share id t := by
  have hshare : share id t = fold.visit t.1.depthBound id t := by
    rw [visit_fold]
    rfl
  rw [hshare] at h ⊢
  exact records_fold.exists_run_eq trivial h

end Sharing

namespace Simplification

variable {p : Program} {s : Simplification} {t : Program × Simplification} {id form : ProcessId}
  {node : Node ProcessId}

/-- A node is written over the forms of its subterms, and its own form is noted. -/
def conclude (id : ProcessId) (node : Node ProcessId) : Pass Simplification ProcessId := do
  Pass.write id node
  let form ← contract id node
  Pass.modifyNotes (record id form)
  return form

/-- Simplification as a fold. -/
def fold : Fold (Program × Simplification) ProcessId :=
  .ofPass form? conclude

theorem visit_fold (depth : Nat) : fold.visit depth = visit depth := by
  refine Fold.visit_ofPass (fun _ => rfl) (fun depth id => ?_) depth
  funext ⟨p, s⟩
  rw [visit, notes_bind_apply, notes_bind_apply]
  cases s.form? id <;> rfl

/-- Forms were noted for processes that are there. -/
def Issued (t : Program × Simplification) : Prop :=
  ∀ c, t.1.size ≤ c → t.2.form? c = none

/-- What a conclusion does: a form is noted, and a node that a law leaves is added first, which is a form of itself. -/
inductive Noted (id : ProcessId) (node : Node ProcessId) (p : Program) (s : Simplification) (form : ProcessId) :
    Program × Simplification → Prop
  | found {s' : Simplification} (hs' : ∀ c, s'.form? c = if id = c then some form else s.form? c) :
      Noted id node p s form (p.write id node, s')
  | added {s' : Simplification} (residual : Node ProcessId) (hform : form = p.size)
      (hs' : ∀ c, s'.form? c = if id = c then some form else if form = c then some form else s.form? c) :
      Noted id node p s form (((p.write id node).add residual).2, s')

theorem ends_conclude (id : ProcessId) (node : Node ProcessId) (p : Program) (s : Simplification) :
    Ends (conclude id node) (p, s) (fun form t => Noted id node p s form t) fun _ _ => False := by
  unfold conclude contract
  rw [ends_bind, ends_write, ends_bind, ends_bind, ends_program]
  split
  · rw [ends_pure, ends_bind, ends_modifyNotes, ends_pure]
    exact .found fun c => form?_record c
  · rw [ends_bind, ends_modifyNotes, ends_pure, ends_bind, ends_modifyNotes, ends_pure]
    exact .found fun c => form?_record c
  · rename_i law residual _
    rw [ends_bind, ends_add, ends_bind, ends_modifyNotes, ends_pure, ends_bind, ends_modifyNotes, ends_pure]
    refine .added residual (Program.size_write p id node) fun c => ?_
    exact (form?_record c).trans (congrArg _ (form?_record c))

theorem Noted.issued (h : Noted id node p s form t) (hissued : Issued (p, s)) (hid : id < p.size) : Issued t := by
  cases h with
  | found hs' =>
    intro c hc
    rw [Program.size_write] at hc
    have hne : id ≠ c := Nat.ne_of_lt (Nat.lt_of_lt_of_le hid hc)
    exact (hs' c).trans ((if_neg hne).trans (hissued c hc))
  | added residual hform hs' =>
    intro c hc
    rw [Program.size_add, Program.size_write] at hc
    have hne : id ≠ c := Nat.ne_of_lt (Nat.lt_of_lt_of_le hid (Nat.le_of_succ_le hc))
    have hnew : form ≠ c := hform ▸ Nat.ne_of_lt hc
    exact (hs' c).trans ((if_neg hne).trans ((if_neg hnew).trans (hissued c (Nat.le_of_succ_le hc))))

theorem Noted.concludes (h : Noted id node p s form t) (hissued : Issued (p, s)) (hnew : s.form? id = none) :
    fold.known? t id = some form ∧ fold.Concludes id (p, s) t := by
  cases h with
  | found hs' =>
    exact Fold.concludes_of_entry hnew hs' fun c hne => (Program.node?_write p id node c).trans (if_neg hne)
  | added residual hform hs' =>
    refine ⟨(hs' id).trans (if_pos rfl), ?_, ?_, ?_⟩
    · intro c b (hc : s.form? c = some b)
      have hne : id ≠ c := by
        rintro rfl
        exact absurd (hnew.symm.trans hc) nofun
      have hold : form ≠ c := by
        rintro rfl
        exact absurd ((hissued form (Nat.le_of_eq hform.symm)).symm.trans hc) nofun
      exact (hs' c).trans ((if_neg hne).trans ((if_neg hold).trans hc))
    · intro c hc
      have hc' := (hs' c).symm.trans hc
      split at hc'
      · cases hc'
      · split at hc'
        · cases hc'
        · rename_i hne hold
          show ((p.write id node).add residual).2.node? c = p.node? c
          rw [Program.node?_add, Program.size_write, if_neg fun heq => hold (hform.trans heq.symm),
            Program.node?_write, if_neg hne]
    · intro c hne hnode hc
      have hold : form ≠ c := by
        rintro rfl
        exact hnode (Program.node?_eq_none_iff.2 (Nat.le_of_eq hform.symm))
      exact (hs' c).trans ((if_neg hne.symm).trans ((if_neg hold).trans hc))

theorem records_fold : fold.Records Issued where
  ends {t id} node hissued hnew hnode := by
    obtain ⟨p, s⟩ := t
    have hid : id < p.size := by
      by_contra hle
      exact hnode (Program.node?_eq_none_iff.2 (Nat.le_of_not_lt hle))
    refine (ends_conclude id node p s).mono ?_ fun _ _ h => h.elim
    exact fun form t h => ⟨h.issued hissued hid, h.concludes hissued hnew⟩
  lasting id node t := by
    obtain ⟨p, s⟩ := t
    refine (ends_conclude id node p s).mono ?_ fun _ _ h => h.elim
    intro form t h
    cases h with
    | found hs' => exact Fold.kept_of_entry hs'
    | @added s' residual hform hs' =>
      intro c hc
      show (s'.form? c).isSome = true
      rw [hs']
      split
      · rfl
      · split
        · rfl
        · exact hc

/-- The loop answers the same form and leaves the same program and notes. -/
theorem exists_run_eq (hissued : Issued t) (h : ∀ t', simplify id t ≠ .error .searchExhausted t') :
    ∃ n, ∀ more, fold.run (n + more) id t = simplify id t := by
  have hsimplify : simplify id t = fold.visit t.1.depthBound id t := by
    rw [visit_fold]
    rfl
  rw [hsimplify] at h ⊢
  exact records_fold.exists_run_eq hissued h

end Simplification

end ProcessCalculus
