import ProcessCalculus.Proofs.Transition.Expansion

/-!
# What expansion adds

Expansion adds nodes in one place only: when a step that the rules give leaves a term former, this is interned. So a new
node is known under its key, and it is the target of a transition of some process from which the process asked for takes
its steps.

* `Expansion.Interned`: all new nodes are known under their keys.
* `Expansion.Grown`: besides, new nodes are targets of known transitions, and which transitions are new.
* `Expansion.grown_successors`: this is what a call adds, whether it succeeds or not.
-/

namespace ProcessCalculus

open Relation Term

namespace Expansion

/-- The program was only extended, all that was shared still is, and new nodes are shared. -/
structure Interned (k k' : Program × Expansion) : Prop where
  size_le : k.1.size ≤ k'.1.size
  node?_eq {x : ProcessId} : x < k.1.size → k'.1.node? x = k.1.node? x
  terms_kept {key : Node ProcessId} {x : ProcessId} :
    k.2.sharing.terms[key]? = some x → k'.2.sharing.terms[key]? = some x
  keyed {x : ProcessId} : k.1.size ≤ x → x < k'.1.size →
    ∃ node, k'.1.node? x = some node ∧ k'.2.sharing.terms[node.key]? = some x

/-- Besides, known transitions were only added, for processes with a given property, and every new node is the target
of a transition that is known. -/
structure Grown (Y : ProcessId → Prop) (k k' : Program × Expansion) : Prop extends Interned k k' where
  kept : k.2.known.Kept k'.2.known
  targeted {x : ProcessId} : k.1.size ≤ x → x < k'.1.size →
    ∃ (y : ProcessId) (ts : Transitions) (a : Action), k'.2.known[y]? = some ts ∧ ⟨a, x⟩ ∈ ts
  known_or {y : ProcessId} {ts : Transitions} : k'.2.known[y]? = some ts → k.2.known[y]? = some ts ∨ Y y

variable {k k' k'' : Program × Expansion} {Y Z : ProcessId → Prop}

namespace Interned

theorem refl (k : Program × Expansion) : Interned k k :=
  ⟨Nat.le_refl _, fun _ => rfl, fun h => h, fun hge hlt => absurd hlt (Nat.not_lt_of_le hge)⟩

theorem trans (h : Interned k k') (h' : Interned k' k'') : Interned k k'' where
  size_le := Nat.le_trans h.size_le h'.size_le
  node?_eq hx := (h'.node?_eq (Nat.lt_of_lt_of_le hx h.size_le)).trans (h.node?_eq hx)
  terms_kept hx := h'.terms_kept (h.terms_kept hx)
  keyed {x} hge hlt := by
    rcases Nat.lt_or_ge x k'.1.size with hx | hx
    · obtain ⟨node, hnode, hkey⟩ := h.keyed hge hx
      exact ⟨node, (h'.node?_eq hx).trans hnode, h'.terms_kept hkey⟩
    · exact h'.keyed hx hlt

end Interned

namespace Grown

theorem refl (k : Program × Expansion) : Grown Y k k where
  toInterned := .refl k
  kept := .refl _
  targeted hge hlt := absurd hlt (Nat.not_lt_of_le hge)
  known_or := .inl

theorem trans (h : Grown Y k k') (h' : Grown Y k' k'') : Grown Y k k'' where
  toInterned := h.toInterned.trans h'.toInterned
  kept := h.kept.trans h'.kept
  targeted {x} hge hlt := by
    rcases Nat.lt_or_ge x k'.1.size with hx | hx
    · obtain ⟨y, ts, a, hts, hmem⟩ := h.targeted hge hx
      exact ⟨y, ts, a, h'.kept y ts hts, hmem⟩
    · exact h'.targeted hx hlt
  known_or hts := (h'.known_or hts).elim h.known_or .inr

theorem mono (h : Grown Y k k') (hYZ : ∀ y, Y y → Z y) : Grown Z k k' where
  toInterned := h.toInterned
  kept := h.kept
  targeted := h.targeted
  known_or hts := (h.known_or hts).imp_right (hYZ _)

end Grown

/-- A node is added only if no node is known under its key, and it is known under this key then. -/
theorem ends_settle_interned (residual : Residual) (k : Program × Expansion) :
    Ends (settle residual) k
      (fun id k' => Interned k k' ∧ k'.2.known = k.2.known ∧ ∀ x, k.1.size ≤ x → x < k'.1.size → x = id)
      fun _ _ => False := by
  obtain ⟨p, e⟩ := k
  cases residual with
  | process id => exact ⟨.refl _, rfl, fun x hge hlt => absurd hlt (Nat.not_lt_of_le hge)⟩
  | node node =>
    unfold settle Sharing.intern
    rw [ends_on, ends_bind, ends_notes]
    split
    · exact ⟨.refl _, rfl, fun x hge hlt => absurd hlt (Nat.not_lt_of_le hge)⟩
    · rename_i hnew
      rw [ends_bind, ends_add, ends_bind, ends_modifyNotes, ends_pure]
      have hsize : (p.add node).2.size = p.size + 1 := Program.size_add p node
      have hlast {x : ProcessId} (hge : p.size ≤ x) (hlt : x < (p.add node).2.size) : x = p.size := by
        rw [hsize] at hlt
        exact Nat.le_antisymm (Nat.le_of_lt_succ hlt) hge
      refine ⟨⟨hsize ▸ Nat.le_succ p.size, fun {x} hx => ?_, fun {key x} hkey => ?_, fun {x} hge hlt => ?_⟩, rfl,
        fun x => hlast⟩
      · rw [Program.node?_add, if_neg (Nat.ne_of_lt hx)]
      · rw [Table.getElem?_insert, if_neg]
        · exact hkey
        · rintro rfl
          rw [hnew] at hkey
          cases hkey
      · refine ⟨node, ?_, ?_⟩
        · rw [hlast hge hlt, Program.node?_add, if_pos rfl]
        · rw [Table.getElem?_insert, if_pos rfl, hlast hge hlt]

/-- What steps leave is settled, and the new nodes are targets of the transitions. -/
theorem ends_settleAll_interned (steps : List (Action × Residual)) (k : Program × Expansion) :
    Ends (steps.mapM fun (a, residual) => do return Transition.mk a (← settle residual)) k
      (fun ts k' => Interned k k' ∧ k'.2.known = k.2.known ∧
        ∀ x, k.1.size ≤ x → x < k'.1.size → ∃ a, ⟨a, x⟩ ∈ ts)
      fun _ _ => False := by
  induction steps generalizing k with
  | nil => exact ⟨.refl _, rfl, fun x hge hlt => absurd hlt (Nat.not_lt_of_le hge)⟩
  | cons step steps ih =>
    obtain ⟨a, residual⟩ := step
    rw [List.mapM_cons, ends_bind]
    show Ends (settle residual >>= fun target => pure (Transition.mk a target)) _ _ _
    rw [ends_bind]
    refine (ends_settle_interned residual k).mono ?_ fun _ _ h => h
    rintro target k₁ ⟨hint, hknown, hnew⟩
    rw [ends_pure, ends_bind]
    refine (ih k₁).mono ?_ fun _ _ h => h
    rintro ts k₂ ⟨hint', hknown', hnew'⟩
    refine ⟨hint.trans hint', hknown'.trans hknown, fun x hge hlt => ?_⟩
    rcases Nat.lt_or_ge x k₁.1.size with hx | hx
    · exact ⟨a, hnew x hge hx ▸ List.mem_cons_self⟩
    · obtain ⟨b, hb⟩ := hnew' x hx hlt
      exact ⟨b, List.mem_cons_of_mem _ hb⟩

/-- A node that is expanded gets its transitions, and all that is added are targets of these. -/
theorem ends_derive_grown {id : ProcessId} (components : List ProcessId) (hnew : k.2.known[id]? = none) :
    Ends (derive id components) k (fun _ => Grown (· = id) k) fun _ => Grown (· = id) k := by
  obtain ⟨p, e⟩ := k
  unfold derive
  rw [ends_bind, ends_node]
  refine ⟨fun node _ => ?_, fun _ => .refl _⟩
  rw [ends_bind, ends_notes, ends_bind]
  refine (ends_settleAll_interned _ _).mono ?_ fun _ _ h => h.elim
  rintro ts ⟨p', e'⟩ ⟨hint, hknown, htargets⟩
  rw [ends_modifyNotes]
  have hentry (x : ProcessId) : (e'.known.insert id (TreapSet.ofList ts))[x]? =
      if id = x then some (TreapSet.ofList ts) else e.known[x]? := by
    rw [Table.getElem?_insert, show e'.known = e.known from hknown]
  refine ⟨⟨hint.size_le, hint.node?_eq, hint.terms_kept, hint.keyed⟩, fun x old hx => ?_, fun {x} hge hlt => ?_,
    fun {y found} hy => ?_⟩
  · rw [hentry, if_neg]
    · exact hx
    · rintro rfl
      rw [hnew] at hx
      cases hx
  · obtain ⟨a, ha⟩ := htargets x hge hlt
    exact ⟨id, _, a, by rw [hentry, if_pos rfl], TreapSet.mem_ofList.2 ha⟩
  · rw [hentry] at hy
    split at hy
    · rename_i hid
      exact .inr hid.symm
    · exact .inl hy

variable {defs : String → Term → Prop} {le : Term → Term → Prop} {r : Reading} {e : Expansion} {id : ProcessId}

/-- What expansion at most `depth` levels deep adds: transitions of processes to which the process leads without an
action, and their targets. -/
def AddsTargets (defs : String → Term → Prop) (le : Term → Term → Prop) (n depth : Nat) : Prop :=
  ∀ ⦃r : Reading⦄ ⦃e : Expansion⦄ ⦃path : List ProcessId⦄ ⦃id : ProcessId⦄, Sound defs le r e →
    Route r.program n path id → (id < r.program.size → id < n) → n < depth + path.length →
      (id ∈ path → ∃ ts, e.known[id]? = some ts) →
        Ends (expand depth path id) (r.program, e)
          (fun _ => Grown (ReflTransGen r.program.UnguardedEdge id) (r.program, e))
          fun _ => Grown (ReflTransGen r.program.UnguardedEdge id) (r.program, e)

/-- What the components of a process add. -/
private theorem addsTargets_all {n depth : Nat} (hexpands : Expands defs le n depth)
    (hadds : AddsTargets defs le n depth) (hs : Sound defs le r e) {path components : List ProcessId}
    (hroute : Route r.program n path id) (hid : id < n) (hnew : id ∉ path) (hdeep : n < depth + 1 + path.length)
    (hreach : ∀ c ∈ components, TransGen r.program.UnguardedEdge id c)
    (hknown : ∀ c ∈ components, c ∈ id :: path → ∃ ts, e.known[c]? = some ts) :
    Ends (components.forM (expand depth (id :: path))) (r.program, e)
      (fun _ => Grown (ReflTransGen r.program.UnguardedEdge id) (r.program, e))
      fun _ => Grown (ReflTransGen r.program.UnguardedEdge id) (r.program, e) := by
  refine (Ends.forM (w := fun k : Reading × Expansion => (k.1.program, k.2))
    (I := fun k => Later defs le r e k.1 k.2 ∧
      Grown (ReflTransGen r.program.UnguardedEdge id) (r.program, e) (k.1.program, k.2))
    (P := fun _ _ => True) (fun c hm k hk => ?_) (k := (r, e)) ⟨.refl hs, .refl _⟩).mono ?_ fun _ _ h => h
  · obtain ⟨hl, hgrown⟩ := hk
    have hc : c < n := hroute.reaches_lt hid (hreach c hm)
    have hroute' := (hroute.step hid hnew (hreach c hm)).extends_reading hl.2.1
    have hdeep' : n < depth + (id :: path).length := by
      rw [List.length_cons]
      omega
    have hknown' (hcp : c ∈ id :: path) : ∃ ts, k.2.known[c]? = some ts :=
      (hknown c hm hcp).imp fun ts => hl.2.2.1 c ts
    -- what the component leads to now, the process led to from the start
    have hold {t : Program × Expansion} (h : Grown (ReflTransGen k.1.program.UnguardedEdge c) (k.1.program, k.2) t) :
        Grown (ReflTransGen r.program.UnguardedEdge id) (r.program, e) t := by
      refine hgrown.trans (h.mono fun y hy => (hreach c hm).to_reflTransGen.trans ?_)
      exact (hl.2.1.of_reaches hs.models.wellFormed (Nat.lt_of_lt_of_le hc hroute.le_size) hy).1
    refine ((hexpands hl.1 hroute' (fun _ => hc) hdeep' hknown').and
      (hadds hl.1 hroute' (fun _ => hc) hdeep' hknown')).mono ?_ fun _ _ h => hold h.2
    rintro _ _ ⟨⟨r', e', rfl, hl', -⟩, h⟩
    exact ⟨(r', e'), rfl, ⟨hl.trans hl', hold h⟩, trivial, fun _ _ => trivial⟩
  · rintro _ _ ⟨k, rfl, ⟨-, hgrown⟩, -⟩
    exact hgrown

/-- By induction on the depth, as for `ends_expand`: the nodes of components come before those of the process. -/
theorem addsTargets (hle : Precongruence le) (n depth : Nat) : AddsTargets defs le n depth := by
  induction depth with
  | zero =>
    intro r e path id _ _ _ _ _
    exact .refl _
  | succ depth ih =>
    intro r e path id hs hroute hid hdeep hpath
    unfold expand
    rw [ends_bind, ends_notes]
    split
    · exact .refl _
    · rename_i hk
      have hnew : e.known[id]? = none := by
        rwa [Std.TreeMap.contains_eq_isSome_getElem?, Option.not_isSome_iff_eq_none] at hk
      rw [ends_bind, ends_program, ends_bind]
      cases hnode : r.program.node? id with
      | none =>
        rw [ends_ofExcept_error (Program.components_eq_none hnode)]
        exact .refl _
      | some node =>
        by_cases hdef : ∃ name, node = .named name none
        · obtain ⟨name, rfl⟩ := hdef
          rw [ends_ofExcept_error (Program.components_eq hnode)]
          exact .refl _
        · obtain ⟨components, hcomp, hc, hreach⟩ := Program.exists_components hs.models hle hnode
            fun name h => hdef ⟨name, h⟩
          rw [ends_ofExcept_ok hcomp]
          dsimp only
          rw [ends_bind, ends_notes]
          split
          · rw [ends_bind, ends_program, ends_bind, ends_throw]
            exact .refl _
          · rename_i hre
            rw [ends_bind]
            have hlt := Program.lt_size_of_node? hnode
            have hunseen : id ∉ path := by
              intro hmem
              obtain ⟨ts, hts⟩ := hpath hmem
              rw [hnew] at hts
              cases hts
            have hknown (c : ProcessId) (hm : c ∈ components) (hcp : c ∈ id :: path) := known_of_reentered? hre hm hcp
            refine ((ends_expandAll (ends_expand hle n depth) hs hroute (hid hlt) hunseen hdeep hreach hknown).and
              (addsTargets_all (ends_expand hle n depth) ih hs hroute (hid hlt) hunseen hdeep hreach hknown)).mono ?_
              fun _ _ h => h.2
            rintro _ _ ⟨⟨r', e', rfl, -, -, hunknown⟩, hgrown⟩
            have hself {t : Program × Expansion} (h : Grown (· = id) (r'.program, e') t) :
                Grown (ReflTransGen r.program.UnguardedEdge id) (r.program, e) t :=
              hgrown.trans (h.mono fun y hy => hy ▸ .refl)
            exact (ends_derive_grown components (hunknown id List.mem_cons_self hnew)).mono (fun _ _ => hself)
              fun _ _ => hself

/-- What a call adds, whether it succeeds or not. -/
theorem grown_successors (hle : Precongruence le) (hs : Sound defs le r e) (id : ProcessId) :
    Grown (ReflTransGen r.program.UnguardedEdge id) (r.program, e) (after (successors id) (r.program, e)) := by
  have hdeep : r.program.size < r.program.expansionBound + ([] : List ProcessId).length :=
    Nat.lt_add_of_pos_right (by decide)
  refine Ends.after (P := Grown _ _) ?_
  unfold successors
  rw [ends_bind, ends_program, ends_bind]
  exact addsTargets hle _ _ hs (.start hs.models.wellFormed id) (fun h => h) hdeep nofun

end Expansion

end ProcessCalculus
