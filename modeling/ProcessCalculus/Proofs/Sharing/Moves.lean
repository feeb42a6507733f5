import ProcessCalculus.Proofs.Sharing.Canonical

/-!
# Sharing, one change at a time

A run of sharing is a sequence of two kinds of changes: a process is written over its canonical subterms and entered,
or a name is made to refer to the canonical node of its definition. What a run leaves behind is therefore known once it
is known what each change preserves.

* `Sharing.Move`: the changes.
* `Sharing.Faithful`: what a run relies on. The keys that were entered need not describe the present nodes.
* `Sharing.Closed`: a set of processes that a run does not leave.
* `Sharing.ends_visit_moves`, `Sharing.ends_shareProgram_moves`: the parts of sharing succeed, and are such sequences.
* `Sharing.ends_share`, `Sharing.ends_shareProgram`: what this is for settled notes.
-/

namespace ProcessCalculus

open Relation Term

namespace Sharing

/-- A change by a run that visits only processes of the set `S`. A process that was not visited before is written over
its canonical subterms and entered, or a visited name is redirected. -/
inductive Move (S : ProcessId → Prop) : Program × Sharing → Program × Sharing → Prop
  | enter {p : Program} {s : Sharing} {id : ProcessId} {node node' : Node ProcessId} (hmem : S id)
      (hnode : p.node? id = some node) (hnew : s.canonical? id = none)
      (hrel : node.Related (fun c d => s.canonical? c = some d) node') :
      Move S (p, s) (p.write id node', enter id node' s)
  | redirect {p : Program} {s : Sharing} {id c body body' : ProcessId} {name : String}
      (hnode : p.node? id = some (.named name (some body))) (hid : s.canonical? id = some c)
      (hbody : s.canonical? body = some body') : Move S (p, s) (p.write id (.named name (some body')), s)

variable {S : ProcessId → Prop} {m : ProcessId → Term} {defs : String → Term → Prop}
  {k k' k'' : Program × Sharing} {p : Program} {s : Sharing} {id x c : ProcessId} {node node' : Node ProcessId}

/-! ### What one change preserves -/

/-- What was visited stays visited, with the same canonical node. -/
theorem Move.canonical?_eq (h : Move S k k') (hc : k.2.canonical? x = some c) : k'.2.canonical? x = some c := by
  cases h with
  | enter hmem hnode hnew hrel => exact canonical?_enter_of_new hnew hc
  | redirect => exact hc

theorem canonical?_eq_of_moves (h : ReflTransGen (Move S) k k') (hc : k.2.canonical? x = some c) :
    k'.2.canonical? x = some c := by
  induction h with
  | refl => exact hc
  | tail _ hmove ih => exact hmove.canonical?_eq ih

/-- What is not visited even after the change was not visited before. -/
theorem canonical?_eq_none_of_moves (h : ReflTransGen (Move S) k k') (hx : k'.2.canonical? x = none) :
    k.2.canonical? x = none := by
  cases hc : k.2.canonical? x with
  | none => rfl
  | some c =>
    rw [canonical?_eq_of_moves h hc] at hx
    cases hx

/-- Only visited processes are written. -/
theorem Move.node?_eq (h : Move S k k') (hx : k'.2.canonical? x = none) : k'.1.node? x = k.1.node? x := by
  cases h with
  | enter hmem hnode hnew hrel =>
    rw [Program.node?_write_of_lt (Program.lt_size_of_node? hnode), if_neg]
    rintro rfl
    rw [canonical?_enter, if_pos rfl] at hx
    cases hx
  | redirect hnode hid hbody =>
    rw [Program.node?_write_of_lt (Program.lt_size_of_node? hnode), if_neg]
    rintro rfl
    rw [hid] at hx
    cases hx

theorem node?_eq_of_moves (h : ReflTransGen (Move S) k k') (hx : k'.2.canonical? x = none) :
    k'.1.node? x = k.1.node? x := by
  induction h with
  | refl => rfl
  | tail _ hmove ih => exact (hmove.node?_eq hx).trans (ih (canonical?_eq_none_of_moves (.single hmove) hx))

/-- What a run of sharing relies on: the program says what the reading `m` says, and so do the notes. -/
structure Faithful (m : ProcessId → Term) (defs : String → Term → Prop) (k : Program × Sharing) : Prop where
  models : Reading.Models Reordered defs ⟨k.1, m⟩
  sound : Sound ⟨k.1, m⟩ k.2
  coherent : Coherent k.2

theorem Shared.faithful (h : Shared m defs k) : Faithful m defs k :=
  ⟨h.models, h.sound, h.settled.coherent⟩

theorem Coherent.move (h : Coherent k.2) (hmove : Move S k k') : Coherent k'.2 := by
  cases hmove with
  | enter _ _ hnew => exact h.enter hnew
  | redirect => exact h

theorem Coherent.moves (h : Coherent k.2) (hmoves : ReflTransGen (Move S) k k') : Coherent k'.2 := by
  induction hmoves with
  | refl => exact h
  | tail _ hmove ih => exact ih.move hmove

/-- The subterms that a process is written over are canonical. -/
theorem Coherent.canonical?_child (h : Coherent s) (hrel : node.Related (fun c d => s.canonical? c = some d) node') :
    ∀ d ∈ node'.children, s.canonical? d = some d := by
  intro d hd
  obtain ⟨c, -, hcd⟩ := hrel.exists_of_mem_children hd
  exact h.canonical_canonical hcd

/-- A process that is written over its canonical subterms stands for the same term. -/
theorem Faithful.enter (hk : Faithful m defs (p, s)) (hnode : p.node? id = some node)
    (hnew : s.canonical? id = none) (hrel : node.Related (fun c d => s.canonical? c = some d) node') :
    Faithful m defs (p.write id node', s.enter id node') ∧ Reading.Rewrites ⟨p, m⟩ ⟨p.write id node', m⟩ := by
  have hlt := Program.lt_size_of_node? hnode
  obtain ⟨hmodels, hrw⟩ := hk.models.rewrite hk.models (.refl _) Reordered.precongruence hnode hrel
    fun c d hcd => (hk.sound.canonical_sound hcd).2
  have hmeans : Reordered (m id) (node'.term m) :=
    hmodels.node_le ((Program.node?_write_of_lt hlt node' id).trans (if_pos rfl))
  have hchildren (c : ProcessId) (hc : c ∈ node'.children) : c < p.size :=
    (hk.sound.canonical_sound (hk.coherent.canonical?_child hrel c hc)).1
  have hsound := hk.sound.enter hlt hchildren hmeans
  exact ⟨⟨hmodels, hsound.keeps (.write _ id node'), hk.coherent.enter hnew⟩, hrw⟩

/-- A name that refers to the canonical node of its definition has the same definition. -/
theorem Faithful.redirect (hk : Faithful m defs (p, s)) {name : String} {body body' : ProcessId}
    (hnode : p.node? id = some (.named name (some body))) (hbody : s.canonical? body = some body') :
    Faithful m defs (p.write id (.named name (some body')), s) ∧
      Reading.Preserves ⟨p, m⟩ ⟨p.write id (.named name (some body')), m⟩ := by
  obtain ⟨-, hlt, hle⟩ := hk.sound.canonical_sound hbody
  have hkeeps := Reading.Preserves.write ⟨p, m⟩ id (.named name (some body'))
  exact ⟨⟨hk.models.redirect Reordered.precongruence hnode hlt hle, hk.sound.keeps hkeeps.toKeeps, hk.coherent⟩,
    hkeeps⟩

theorem Settled.move (h : Settled k.1 k.2) (hmove : Move S k k') : Settled k'.1 k'.2 := by
  cases hmove with
  | enter _ hnode hnew hrel =>
    exact h.enter (Program.lt_size_of_node? hnode) hnew (h.coherent.canonical?_child hrel)
  | @redirect p s id c body body' name hnode hid hbody =>
    -- the key of a name does not mention its definition
    refine h.of_keys fun other _ _ n hn => ?_
    rw [Program.node?_write_of_lt (Program.lt_size_of_node? hnode)] at hn
    split at hn
    · rename_i hother
      cases hn
      exact ⟨.named name (some body), hother ▸ hnode, rfl, rfl⟩
    · exact ⟨n, hn, rfl, rfl⟩

theorem Settled.moves (h : Settled k.1 k.2) (hmoves : ReflTransGen (Move S) k k') : Settled k'.1 k'.2 := by
  induction hmoves with
  | refl => exact h
  | tail _ hmove ih => exact ih.move hmove

/-- A name refers to what it referred to before, or to the canonical node of this. -/
def Redirects (s : Sharing) (body body' : Option ProcessId) : Prop :=
  body' = body ∨ ∃ b c, body = some b ∧ body' = some c ∧ s.canonical? b = some c

theorem Move.exists_body (h : Move S k k') {name : String} {body : Option ProcessId}
    (hx : k.1.node? x = some (.named name body)) :
    ∃ body', k'.1.node? x = some (.named name body') ∧ Redirects k'.2 body body' := by
  cases h with
  | enter hmem hnode hnew hrel =>
    rw [Program.node?_write_of_lt (Program.lt_size_of_node? hnode)]
    split
    · rename_i hxid
      subst hxid
      obtain rfl := Option.some.inj (hnode.symm.trans hx)
      cases hrel
      exact ⟨body, rfl, .inl rfl⟩
    · exact ⟨body, hx, .inl rfl⟩
  | @redirect p s id c b b' name' hnode hid hbody =>
    rw [Program.node?_write_of_lt (Program.lt_size_of_node? hnode)]
    split
    · rename_i hxid
      subst hxid
      obtain ⟨rfl, rfl⟩ := Node.named.inj (Option.some.inj (hnode.symm.trans hx))
      exact ⟨some b', rfl, .inr ⟨b, b', rfl, rfl, hbody⟩⟩
    · exact ⟨body, hx, .inl rfl⟩

theorem exists_body_of_moves (h : ReflTransGen (Move S) k k') (hk : Coherent k.2) {name : String}
    {body : Option ProcessId} (hx : k.1.node? x = some (.named name body)) :
    ∃ body', k'.1.node? x = some (.named name body') ∧ Redirects k'.2 body body' := by
  induction h with
  | refl => exact ⟨body, hx, .inl rfl⟩
  | tail hbefore hmove ih =>
    obtain ⟨body₁, hx₁, hbody₁⟩ := ih
    obtain ⟨body₂, hx₂, hbody₂⟩ := hmove.exists_body hx₁
    refine ⟨body₂, hx₂, ?_⟩
    obtain rfl | ⟨b, c, rfl, rfl, hc⟩ := hbody₁
    · exact hbody₂
    · have hc' := hmove.canonical?_eq hc
      obtain rfl | ⟨b', c', hb', rfl, hcc'⟩ := hbody₂
      · exact .inr ⟨b, c, rfl, rfl, hc'⟩
      · -- the name refers to a canonical node already, so it is redirected to the same one
        cases hb'
        obtain rfl := Option.some.inj (hcc'.symm.trans (((hk.moves hbefore).move hmove).canonical_canonical hc'))
        exact .inr ⟨b, c', rfl, rfl, hc'⟩

/-- A run that starts in the set `S` does not leave it: what is not visited yet has its subterms in `S`, and so are
definitions, unless they have been visited. -/
structure Closed (S : ProcessId → Prop) (k : Program × Sharing) : Prop where
  child_mem {x y : ProcessId} {node : Node ProcessId} : S x → k.2.canonical? x = none → k.1.node? x = some node →
    y ∈ node.children → S y
  body_mem {x b : ProcessId} {name : String} : k.1.node? x = some (.named name (some b)) → k.2.canonical? b = none → S b

theorem Closed.all (k : Program × Sharing) : Closed (fun _ => True) k where
  child_mem _ _ _ _ := trivial
  body_mem _ _ := trivial

theorem Closed.move (h : Closed S k) (hk : Coherent k.2) (hmove : Move S k k') : Closed S k' where
  child_mem {x y n} hx hnone hn hy :=
    h.child_mem hx (canonical?_eq_none_of_moves (.single hmove) hnone) ((hmove.node?_eq hnone).symm.trans hn) hy
  body_mem {x b name} hx hb := by
    have hb' := canonical?_eq_none_of_moves (.single hmove) hb
    cases hmove with
    | enter _ hnode _ hrel =>
      rw [Program.node?_write_of_lt (Program.lt_size_of_node? hnode)] at hx
      split at hx
      · rename_i hid
        subst hid
        cases hx
        cases hrel
        exact h.body_mem hnode hb'
      · exact h.body_mem hx hb'
    | redirect hnode _ hbody =>
      rw [Program.node?_write_of_lt (Program.lt_size_of_node? hnode)] at hx
      split at hx
      · cases hx
        rw [hk.canonical_canonical hbody] at hb'
        cases hb'
      · exact h.body_mem hx hb'

theorem Closed.moves (h : Closed S k) (hk : Coherent k.2) (hmoves : ReflTransGen (Move S) k k') : Closed S k' := by
  induction hmoves with
  | refl => exact h
  | tail hbefore hmove ih => exact ih.move (hk.moves hbefore) hmove

/-- The process was visited, and if it is a name then it refers to a canonical node. -/
structure Done (k : Program × Sharing) (id : ProcessId) : Prop where
  exists_canonical : ∃ c, k.2.canonical? id = some c
  body_canonical {name : String} {b : ProcessId} :
    k.1.node? id = some (.named name (some b)) → k.2.canonical? b = some b

theorem Done.move (h : Done k id) (hmove : Move S k k') : Done k' id := by
  obtain ⟨c, hc⟩ := h.exists_canonical
  refine ⟨⟨c, hmove.canonical?_eq hc⟩, fun {name b} hb => ?_⟩
  cases hmove with
  | @enter p s x node node' hmem hnode hnew hrel =>
    have hx : x ≠ id := by
      rintro rfl
      rw [hnew] at hc
      cases hc
    rw [Program.node?_write_of_lt (Program.lt_size_of_node? hnode), if_neg hx] at hb
    exact (Move.enter hmem hnode hnew hrel).canonical?_eq (h.body_canonical hb)
  | @redirect p s x _ body body' name' hnode hx hbody =>
    rw [Program.node?_write_of_lt (Program.lt_size_of_node? hnode)] at hb
    split at hb
    · rename_i hxid
      subst hxid
      cases hb
      have hown := h.body_canonical hnode
      rw [hbody, Option.some.injEq] at hown
      subst hown
      exact hbody
    · exact h.body_canonical hb

theorem Done.moves (h : Done k id) (hmoves : ReflTransGen (Move S) k k') : Done k' id := by
  induction hmoves with
  | refl => exact h
  | tail _ hmove ih => exact ih.move hmove

/-- When a name is done, its definition has been visited, and the name refers to the canonical node of this. -/
theorem Done.exists_body (h : Done k' id) (hk : Coherent k.2) (hmoves : ReflTransGen (Move S) k k') {name : String}
    {b : ProcessId} (hnode : k.1.node? id = some (.named name (some b))) :
    ∃ c, k'.2.canonical? b = some c ∧ k'.1.node? id = some (.named name (some c)) := by
  obtain ⟨body', hnode', rfl | ⟨b', c, hb', rfl, hc⟩⟩ := exists_body_of_moves hmoves hk hnode
  · exact ⟨b, h.body_canonical hnode', hnode'⟩
  · cases hb'
    exact ⟨c, hc, hnode'⟩

/-! ### Runs -/

/-- What a part of a run has done that started from `k` and entered only terms of less than a given height. -/
structure Run (S : ProcessId → Prop) (m : ProcessId → Term) (defs : String → Term → Prop) (height : Nat)
    (k k' : Program × Sharing) : Prop where
  faithful : Faithful m defs k'
  advances : Advances m height k k'
  moves : ReflTransGen (Move S) k k'

namespace Run

variable {height height' : Nat}

theorem refl (S : ProcessId → Prop) (hk : Faithful m defs k) (height : Nat) : Run S m defs height k k :=
  ⟨hk, .refl _ _ _, .refl⟩

theorem trans (h : Run S m defs height k k') (h' : Run S m defs height' k' k'') (hle : height' ≤ height) :
    Run S m defs height k k'' :=
  ⟨h'.faithful, h.advances.trans (h'.advances.mono hle), h.moves.trans h'.moves⟩

/-- When the subterms of a node have canonical nodes, it is written over these and entered. Only less deep terms were
entered meanwhile, so the node itself is still as it was. -/
theorem enter (h : Run S m defs (m id).height k k') (hmem : S id) (hnode : k.1.node? id = some node)
    (hnone : k.2.canonical? id = none) (hrel : node.Related (fun c d => k'.2.canonical? c = some d) node') :
    Run S m defs ((m id).height + 1) k (k'.1.write id node', k'.2.enter id node') := by
  have hnone' : k'.2.canonical? id = none := by
    cases hc : k'.2.canonical? id with
    | none => rfl
    | some c => exact absurd (h.advances.height_lt hnone hc) (Nat.lt_irrefl _)
  have hnode' : k'.1.node? id = some node := (node?_eq_of_moves h.moves hnone').trans hnode
  obtain ⟨hfaithful, hrw⟩ := h.faithful.enter hnode' hnone' hrel
  refine ⟨hfaithful, ⟨h.advances.rewrites.trans hrw, fun {other c} hc => ?_, fun {other c} hother hc => ?_⟩,
    h.moves.tail (.enter hmem hnode' hnone' hrel)⟩
  · exact canonical?_enter_of_new hnone' (h.advances.canonical? hc)
  · rw [canonical?_enter] at hc
    split at hc
    · rename_i hid
      rw [hid]
      exact Nat.lt_succ_self _
    · exact Nat.lt_succ_of_lt (h.advances.height_lt hother hc)

end Run

/-- Sharing of a term succeeds and answers its canonical node. By induction on the depth: subterms are less deep,
so the node itself is not visited before they are done. -/
theorem ends_visit_moves {depth : Nat} (hk : Faithful m defs k) (hclosed : Closed S k) (hid : id < k.1.size)
    (hd : (m id).height < depth) (hmem : k.2.canonical? id = none → S id) :
    Ends (visit depth id) k (fun c k' => Run S m defs ((m id).height + 1) k k' ∧ k'.2.canonical? id = some c)
      fun _ _ => False := by
  induction depth generalizing id k with
  | zero => exact absurd hd (Nat.not_lt_zero _)
  | succ depth ih =>
    obtain ⟨p, s⟩ := k
    unfold visit
    rw [ends_bind, ends_notes]
    split
    · rename_i c hc
      exact ⟨.refl S hk _, hc⟩
    · rename_i hnew
      have hnone : s.canonical? id = none := Option.eq_none_iff_forall_ne_some.2 hnew
      rw [ends_bind, ends_node]
      refine ⟨fun node hnode => ?_, fun hn => absurd hid (Nat.not_lt_of_le (Program.node?_eq_none_iff.1 hn))⟩
      have hchild (c : ProcessId) (hc : c ∈ node.children) : (m c).height < (m id).height := by
        rw [(hk.models.node_le hnode).height_eq]
        exact Node.height_lt_of_mem_children (m := m) hc
      rw [ends_bind]
      refine (Ends.traverse (w := fun k' => k') (I := Run S m defs (m id).height (p, s))
        (R := fun k' c d => k'.2.canonical? c = some d) (fun c hc k' hrun => ?_) (.refl S hk _)).mono ?_
        fun _ _ h => h
      · have hlt := Nat.lt_of_lt_of_le (hk.models.wellFormed.child_lt hnode c hc) hrun.advances.rewrites.size_le
        have hdepth : (m c).height < depth := by
          have := hchild c hc
          omega
        refine (ih hrun.faithful (hclosed.moves hk.coherent hrun.moves) hlt hdepth
          fun _ => hclosed.child_mem (hmem hnone) hnone hnode hc).mono ?_ fun _ _ h => h
        rintro d k'' ⟨hrun', hcd⟩
        exact ⟨k'', rfl, hrun.trans hrun' (hchild c hc), hcd, fun _ _ h => hrun'.advances.canonical? h⟩
      · rintro node' _ ⟨⟨q, s'⟩, rfl, hrun, hrel, -⟩
        rw [ends_bind, ends_write, ends_bind, ends_modifyNotes, ends_bind, ends_notes, ends_pure]
        refine ⟨hrun.enter (hmem hnone) hnode hnone hrel, ?_⟩
        show (Sharing.enter id node' s').canonical? id = _
        rw [canonical?_enter, if_pos rfl]
        rfl

theorem ends_share_moves (hk : Faithful m defs k) (hclosed : Closed S k) (hid : id < k.1.size)
    (hmem : k.2.canonical? id = none → S id) :
    Ends (share id) k (fun c k' => Run S m defs ((m id).height + 1) k k' ∧ k'.2.canonical? id = some c)
      fun _ _ => False := by
  obtain ⟨p, s⟩ := k
  unfold share
  rw [ends_bind, ends_program]
  exact ends_visit_moves hk hclosed hid (Nat.lt_of_le_of_lt (hk.models.height_le hid) (Nat.lt_succ_of_lt hid)) hmem

/-- Sharing of an identifier that is not in the program changes nothing. -/
theorem ends_share_of_le (hk : Faithful m defs k) (hid : k.1.size ≤ id) :
    Ends (share id) k (fun _ _ => False) fun e k' => e = .missingProcess id ∧ k' = k := by
  obtain ⟨p, s⟩ := k
  unfold share
  rw [ends_bind, ends_program]
  unfold Program.depthBound visit
  rw [ends_bind, ends_notes]
  split
  · rename_i c hc
    exact absurd (hk.sound.canonical_sound hc).1 (Nat.not_lt_of_le hid)
  · rw [ends_bind, ends_node]
    refine ⟨fun node hnode => absurd (Program.lt_size_of_node? hnode) (Nat.not_lt_of_le hid), fun _ => ⟨rfl, rfl⟩⟩

/-- What holds after definitions have been shared. -/
structure ProgramRun (S : ProcessId → Prop) (m : ProcessId → Term) (defs : String → Term → Prop)
    (k k' : Program × Sharing) : Prop where
  faithful : Faithful m defs k'
  preserves : Reading.Preserves ⟨k.1, m⟩ ⟨k'.1, m⟩
  moves : ReflTransGen (Move S) k k'

/-- A name and its definition are shared, and then the name refers to a canonical node. -/
theorem ends_shareNamed_moves (hk : Faithful m defs k) (hclosed : Closed S k) (hid : id < k.1.size)
    (hmem : k.2.canonical? id = none → S id) {name : String} {body : Option ProcessId}
    (hnode : k.1.node? id = some (.named name body)) :
    Ends (shareNamed id) k (fun _ k' => ProgramRun S m defs k k' ∧ Done k' id) fun _ _ => False := by
  unfold shareNamed
  rw [ends_bind]
  refine (ends_share_moves hk hclosed hid hmem).mono ?_ fun _ _ h => h
  rintro c ⟨p, s⟩ ⟨hrun, hc⟩
  have hnode₁ : p.node? id = some (.named name body) := hrun.advances.rewrites.named_iff.2 hnode
  rw [ends_bind, ends_node]
  refine ⟨fun node hn => ?_, fun hn => by simp [hn] at hnode₁⟩
  obtain rfl : node = .named name body := Option.some.inj (hn.symm.trans hnode₁)
  cases body with
  | none =>
    exact ⟨⟨hrun.faithful, hrun.advances.rewrites.toPreserves, hrun.moves⟩, ⟨c, hc⟩, fun hb => by simp [hnode₁] at hb⟩
  | some b =>
    dsimp only
    rw [ends_bind]
    have hclosed₁ := hclosed.moves hk.coherent hrun.moves
    refine (ends_share_moves hrun.faithful hclosed₁ (hrun.faithful.models.wellFormed.body_lt hnode₁)
      (hclosed₁.body_mem hnode₁)).mono ?_ fun _ _ h => h
    rintro b' ⟨q, s'⟩ ⟨hrun', hcb⟩
    rw [ends_write]
    have hnode₂ : q.node? id = some (.named name (some b)) := hrun'.advances.rewrites.named_iff.2 hnode₁
    have hc' := hrun'.advances.canonical? hc
    obtain ⟨hfaithful, hpreserves⟩ := hrun'.faithful.redirect hnode₂ hcb
    have hbefore := hrun.advances.rewrites.toPreserves.trans hrun'.advances.rewrites.toPreserves
    refine ⟨⟨hfaithful, hbefore.trans hpreserves, (hrun.moves.trans hrun'.moves).tail (.redirect hnode₂ hc' hcb)⟩,
      ⟨c, hc'⟩, fun {name' d} hd => ?_⟩
    rw [Program.node?_write_of_lt (Program.lt_size_of_node? hnode₂), if_pos rfl] at hd
    cases hd
    exact hrun'.faithful.coherent.canonical_canonical hcb

/-- Sharing of all definitions succeeds. In the end all names are done, and the report counts what was visited
meanwhile. -/
theorem ends_shareProgram_moves (hk : Faithful m defs k) (hclosed : Closed S k)
    (hnames : ∀ x name body, k.1.node? x = some (.named name body) → S x) :
    Ends shareProgram k
      (fun report k' => ProgramRun S m defs k k' ∧ (∀ id ∈ k.1.named, Done k' id) ∧
        report = ⟨k'.2.report.visited - k.2.report.visited, k'.2.report.merged - k.2.report.merged⟩)
      fun _ _ => False := by
  obtain ⟨p, s⟩ := k
  unfold shareProgram
  rw [ends_bind, ends_notes, ends_bind, ends_program, ends_bind]
  refine (Ends.forM (w := fun k' => k') (I := ProgramRun S m defs (p, s)) (P := Done) (fun id hid k' hpass => ?_)
    ⟨hk, .refl _, .refl⟩).mono ?_ fun _ _ h => h
  · obtain ⟨name, hl⟩ := Program.mem_named.1 hid
    have hl' : k'.1.lookup? name = some id := (hpass.preserves.lookup?_eq name).trans hl
    obtain ⟨body, hnode⟩ := hpass.faithful.models.wellFormed.exists_named_of_lookup? hl'
    obtain ⟨body₀, hnode₀⟩ := hk.models.wellFormed.exists_named_of_lookup? hl
    have hclosed' := hclosed.moves hk.coherent hpass.moves
    refine (ends_shareNamed_moves hpass.faithful hclosed' (Program.lt_size_of_node? hnode)
      (fun _ => hnames id name body₀ hnode₀) hnode).mono ?_ fun _ _ h => h
    rintro _ k'' ⟨hpass', hdone⟩
    exact ⟨k'', rfl, ⟨hpass'.faithful, hpass.preserves.trans hpass'.preserves, hpass.moves.trans hpass'.moves⟩, hdone,
      fun _ h => h.moves hpass'.moves⟩
  · rintro _ _ ⟨⟨q, s'⟩, rfl, hpass, hdone, -⟩
    rw [ends_bind, ends_notes, ends_pure]
    exact ⟨hpass, hdone, rfl⟩

/-! ### Runs with settled notes -/

theorem ends_share (hk : Shared m defs k) (hid : id < k.1.size) :
    Ends (share id) k
      (fun c k' => Shared m defs k' ∧ Advances m ((m id).height + 1) k k' ∧ k'.2.canonical? id = some c)
      fun _ _ => False := by
  refine (ends_share_moves hk.faithful (.all k) hid fun _ => trivial).mono ?_ fun _ _ h => h
  rintro c k' ⟨hrun, hc⟩
  exact ⟨⟨hrun.faithful.models, hrun.faithful.sound, hk.settled.moves hrun.moves⟩, hrun.advances, hc⟩

/-- Sharing of all definitions visits every name and every definition. -/
theorem ends_shareProgram (hk : Shared m defs k) :
    Ends shareProgram k
      (fun _ k' => Shared m defs k' ∧ Reading.Preserves ⟨k.1, m⟩ ⟨k'.1, m⟩ ∧
        ∀ x name body, k.1.node? x = some (.named name body) → (∃ c, k'.2.canonical? x = some c) ∧
          ∀ b, body = some b → ∃ c, k'.2.canonical? b = some c ∧ k'.1.node? x = some (.named name (some c)))
      fun _ _ => False := by
  refine (ends_shareProgram_moves hk.faithful (.all k) fun _ _ _ _ => trivial).mono ?_ fun _ _ h => h
  rintro _ k' ⟨hpass, hdone, -⟩
  refine ⟨⟨hpass.faithful.models, hpass.faithful.sound, hk.settled.moves hpass.moves⟩, hpass.preserves, ?_⟩
  intro x name body hx
  have hx' := hdone x (Program.mem_named.2 ⟨name, hk.models.wellFormed.lookup?_of_named hx⟩)
  refine ⟨hx'.exists_canonical, ?_⟩
  rintro b rfl
  exact hx'.exists_body hk.settled.coherent hpass.moves hx

end Sharing

end ProcessCalculus
