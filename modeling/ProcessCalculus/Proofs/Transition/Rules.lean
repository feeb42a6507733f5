import ProcessCalculus.Transition.Expansion
import ProcessCalculus.Proofs.Calculus.Precongruence

/-!
# Lists of steps

When a list of actions and targets is, up to a preorder on terms, the list of all steps of a term; and how the rules
of the calculus make such a list for a term former from those of its operands.

* `Enumerates`: nothing but the steps of a term is there, and all of them.
* `Enumerates.of_le`, `Enumerates.of_targets`: what may be changed in a list of steps.
* `Node.enumerates_steps`, `Enumerates.of_components`: the rules.
-/

namespace ProcessCalculus

open Term

/-- Up to the preorder, the pairs of an action and a target for which `P` holds are the steps of the term. -/
structure Enumerates (step : Term → Action → Term → Prop) (le : Term → Term → Prop) (t : Term)
    (P : Action → Term → Prop) : Prop where
  sound {a : Action} {v : Term} : P a v → ∃ u, step t a u ∧ le u v
  complete {a : Action} {u : Term} : step t a u → ∃ v, P a v ∧ le u v

/-- The actions and targets of listed transitions. -/
def Listed (m : ProcessId → Term) (ts : List Transition) (a : Action) (v : Term) : Prop :=
  ∃ t ∈ ts, t.action = a ∧ m t.target = v

/-- The actions of listed steps, and what they leave. -/
def Leaves (m : ProcessId → Term) (l : List (Action × Residual)) (a : Action) (v : Term) : Prop :=
  ∃ residual, (a, residual) ∈ l ∧ residual.term m = v

namespace Enumerates

variable {step : Term → Action → Term → Prop} {le : Term → Term → Prop} {s t : Term}
  {P Q : Action → Term → Prop}

theorem mono {le' : Term → Term → Prop} (h : Enumerates step le t P) (hle : ∀ {s t}, le s t → le' s t) :
    Enumerates step le' t P where
  sound hP := (h.sound hP).imp fun _ hu => ⟨hu.1, hle hu.2⟩
  complete hs := (h.complete hs).imp fun _ hv => ⟨hv.1, hle hv.2⟩

/-- A term that may stand for another one makes its steps. -/
theorem of_le (hle : Precongruence le) (hb : IsBisimulation step step le) (hst : le s t)
    (h : Enumerates step le t P) : Enumerates step le s P where
  sound hP := by
    obtain ⟨u, hu, huv⟩ := h.sound hP
    obtain ⟨u', hu', hle'⟩ := hb.back hst hu
    exact ⟨u', hu', hle.trans hle' huv⟩
  complete hs := by
    obtain ⟨u, hu, hle'⟩ := hb.forth hst hs
    obtain ⟨v, hv, huv⟩ := h.complete hu
    exact ⟨v, hv, hle.trans hle' huv⟩

/-- Targets may be replaced by what may stand for them. -/
theorem of_targets (hle : Precongruence le) (h : Enumerates step le t P)
    (hPQ : ∀ a v, P a v → ∃ w, Q a w ∧ le v w) (hQP : ∀ a w, Q a w → ∃ v, P a v ∧ le v w) :
    Enumerates step le t Q where
  sound hQ := by
    obtain ⟨v, hv, hvw⟩ := hQP _ _ hQ
    obtain ⟨u, hu, huv⟩ := h.sound hv
    exact ⟨u, hu, hle.trans huv hvw⟩
  complete hs := by
    obtain ⟨v, hv, huv⟩ := h.complete hs
    obtain ⟨w, hw, hvw⟩ := hPQ _ _ hv
    exact ⟨w, hw, hle.trans huv hvw⟩

/-- A term whose steps are those of some components. -/
theorem of_components (hle : Precongruence le) {α : Type} {components : List α} {term : α → Term}
    {R : α → Action → Term → Prop}
    (forth : ∀ a u, step t a u → ∃ c ∈ components, ∃ u', step (term c) a u' ∧ le u u')
    (back : ∀ c ∈ components, ∀ a u', step (term c) a u' → ∃ u, step t a u ∧ le u u')
    (h : ∀ c ∈ components, Enumerates step le (term c) (R c)) :
    Enumerates step le t fun a v => ∃ c ∈ components, R c a v where
  sound := by
    rintro a v ⟨c, hc, hR⟩
    obtain ⟨u', hu', huv⟩ := (h c hc).sound hR
    obtain ⟨u, hu, hle'⟩ := back c hc _ _ hu'
    exact ⟨u, hu, hle.trans hle' huv⟩
  complete hs := by
    obtain ⟨c, hc, u', hu', hle'⟩ := forth _ _ hs
    obtain ⟨v, hR, huv⟩ := (h c hc).complete hu'
    exact ⟨v, ⟨c, hc, hR⟩, hle.trans hle' huv⟩

end Enumerates

namespace Node

variable {defs : String → Term → Prop} {le : Term → Term → Prop} {m : ProcessId → Term}
  {of : ProcessId → List Transition} {components : List ProcessId} {node : Node ProcessId}

/-- For a name and for a sum, the steps are those of the components. -/
theorem leaves_components (h : (∃ name body, node = .named name body) ∨ ∃ l r, node = .sum l r)
    {a : Action} {v : Term} :
    Leaves m (node.steps of components) a v ↔ ∃ c ∈ components, Listed m (of c) a v := by
  have hsteps : node.steps of components =
      components.flatMap fun c => (of c).map fun t => (t.action, .process t.target) := by
    rcases h with ⟨name, body, rfl⟩ | ⟨l, r, rfl⟩ <;> rfl
  rw [hsteps]
  constructor
  · rintro ⟨residual, hmem, hv⟩
    obtain ⟨c, hc, hmem⟩ := List.mem_flatMap.1 hmem
    obtain ⟨t, ht, heq⟩ := List.mem_map.1 hmem
    cases heq
    exact ⟨c, hc, t, ht, rfl, hv⟩
  · rintro ⟨c, hc, t, ht, rfl, hv⟩
    exact ⟨.process t.target, List.mem_flatMap.2 ⟨c, hc, List.mem_map.2 ⟨t, ht, rfl⟩⟩, hv⟩

private theorem enumerates_act (hle : Precongruence le) (a : Action) (c : ProcessId) :
    Enumerates (Step defs) le (.act a (m c)) (Leaves m (steps of components (.act a c))) where
  sound := by
    rintro b v ⟨residual, hmem, rfl⟩
    cases List.mem_singleton.1 hmem
    exact ⟨_, .act a _, hle.refl _⟩
  complete hs := by
    cases hs
    exact ⟨m c, ⟨.process c, List.mem_singleton.2 rfl, rfl⟩, hle.refl _⟩

private theorem enumerates_delay (hle : Precongruence le) (d : UInt32) (c : ProcessId) :
    Enumerates (Step defs) le (.delay d (m c)) (Leaves m (steps of components (.delay d c))) where
  sound := by
    rintro b v ⟨residual, hmem, rfl⟩
    cases List.mem_singleton.1 hmem
    exact ⟨_, .delay d _, hle.refl _⟩
  complete hs := by
    cases hs
    exact ⟨m c, ⟨.process c, List.mem_singleton.2 rfl, rfl⟩, hle.refl _⟩

private theorem enumerates_restrict (hle : Precongruence le) {c : ProcessId} {labels : LabelSet}
    (h : Enumerates (Step defs) le (m c) (Listed m (of c))) :
    Enumerates (Step defs) le (.restrict (m c) labels)
      (Leaves m (steps of components (.restrict c labels))) where
  sound := by
    rintro a v ⟨residual, hmem, rfl⟩
    obtain ⟨t, ht, heq⟩ := List.mem_map.1 hmem
    cases heq
    obtain ⟨ht, hpass⟩ := List.mem_filter.1 ht
    obtain ⟨u, hu, huv⟩ := h.sound ⟨t, ht, rfl, rfl⟩
    exact ⟨_, .restrict hu (LabelSet.passes_iff.1 hpass), hle.restrict labels huv⟩
  complete {a u} hs := by
    cases hs with
    | restrict hs hidden =>
      obtain ⟨_, ⟨t, ht, rfl, rfl⟩, huv⟩ := h.complete hs
      refine ⟨_, ⟨.node (.restrict t.target labels), ?_, rfl⟩, hle.restrict labels huv⟩
      exact List.mem_map.2 ⟨t, List.mem_filter.2 ⟨ht, LabelSet.passes_iff.2 hidden⟩, rfl⟩

private theorem enumerates_rename (hle : Precongruence le) {c : ProcessId} {renames : Renaming}
    (h : Enumerates (Step defs) le (m c) (Listed m (of c))) :
    Enumerates (Step defs) le (.rename (m c) renames)
      (Leaves m (steps of components (.rename c renames))) where
  sound := by
    rintro a v ⟨residual, hmem, rfl⟩
    obtain ⟨t, ht, heq⟩ := List.mem_map.1 hmem
    cases heq
    obtain ⟨u, hu, huv⟩ := h.sound ⟨t, ht, rfl, rfl⟩
    exact ⟨_, .rename hu (Renaming.takes_iff.2 rfl), hle.rename renames huv⟩
  complete {a u} hs := by
    cases hs with
    | rename hs takes =>
      obtain ⟨_, ⟨t, ht, rfl, rfl⟩, huv⟩ := h.complete hs
      refine ⟨_, ⟨.node (.rename t.target renames), ?_, rfl⟩, hle.rename renames huv⟩
      rw [← Renaming.takes_iff.1 takes]
      exact List.mem_map.2 ⟨t, ht, rfl⟩

private theorem enumerates_parallel (hle : Precongruence le) {l r : ProcessId}
    (hl : Enumerates (Step defs) le (m l) (Listed m (of l)))
    (hr : Enumerates (Step defs) le (m r) (Listed m (of r))) :
    Enumerates (Step defs) le (.parallel (m l) (m r))
      (Leaves m (steps of components (.parallel l r))) where
  sound := by
    rintro a v ⟨residual, hmem, rfl⟩
    -- first the steps of the left side, then those of the right side, then handshakes
    rcases List.mem_append.1 hmem with hmem | hmem
    · rcases List.mem_append.1 hmem with hmem | hmem
      · obtain ⟨t, ht, heq⟩ := List.mem_map.1 hmem
        cases heq
        obtain ⟨u, hu, huv⟩ := hl.sound ⟨t, ht, rfl, rfl⟩
        exact ⟨_, .left _ hu, hle.parallel huv (hle.refl _)⟩
      · obtain ⟨t, ht, heq⟩ := List.mem_map.1 hmem
        cases heq
        obtain ⟨u, hu, huv⟩ := hr.sound ⟨t, ht, rfl, rfl⟩
        exact ⟨_, .right _ hu, hle.parallel (hle.refl _) huv⟩
    · obtain ⟨t, ht, hmem⟩ := List.mem_flatMap.1 hmem
      obtain ⟨t', ht', heq⟩ := List.mem_map.1 hmem
      cases heq
      obtain ⟨ht', hsync⟩ := List.mem_filter.1 ht'
      obtain ⟨label, p, htl, htr⟩ := Action.synchronises_iff.1 hsync
      obtain ⟨u, hu, huv⟩ := hl.sound ⟨t, ht, htl, rfl⟩
      obtain ⟨u', hu', huv'⟩ := hr.sound ⟨t', ht', htr, rfl⟩
      exact ⟨_, .handshake hu hu', hle.parallel huv huv'⟩
  complete {a u} hs := by
    cases hs with
    | left _ hs =>
      obtain ⟨_, ⟨t, ht, rfl, rfl⟩, huv⟩ := hl.complete hs
      refine ⟨_, ⟨.node (.parallel t.target r), ?_, rfl⟩, hle.parallel huv (hle.refl _)⟩
      exact List.mem_append_left _ (List.mem_append_left _ (List.mem_map.2 ⟨t, ht, rfl⟩))
    | right _ hs =>
      obtain ⟨_, ⟨t, ht, rfl, rfl⟩, huv⟩ := hr.complete hs
      refine ⟨_, ⟨.node (.parallel l t.target), ?_, rfl⟩, hle.parallel (hle.refl _) huv⟩
      exact List.mem_append_left _ (List.mem_append_right _ (List.mem_map.2 ⟨t, ht, rfl⟩))
    | @handshake _ _ _ _ label p hs hs' =>
      obtain ⟨_, ⟨t, ht, hta, rfl⟩, huv⟩ := hl.complete hs
      obtain ⟨_, ⟨t', ht', hta', rfl⟩, huv'⟩ := hr.complete hs'
      refine ⟨_, ⟨.node (.parallel t.target t'.target), ?_, rfl⟩, hle.parallel huv huv'⟩
      refine List.mem_append_right _ (List.mem_flatMap.2 ⟨t, ht, List.mem_map.2 ⟨t', ?_, rfl⟩⟩)
      exact List.mem_filter.2 ⟨ht', Action.synchronises_iff.2 ⟨label, p, hta, hta'⟩⟩

/-- The steps of a node that is no name and no sum, from those of the processes to which it leads. -/
theorem enumerates_steps (hle : Precongruence le)
    (hkind : ¬ ((∃ name body, node = .named name body) ∨ ∃ l r, node = .sum l r))
    (h : ∀ c ∈ node.unguardedChildren, Enumerates (Step defs) le (m c) (Listed m (of c))) :
    Enumerates (Step defs) le (node.term m) (Leaves m (node.steps of components)) := by
  cases node with
  | null =>
    constructor
    · rintro a v ⟨residual, hmem, -⟩
      cases hmem
    · intro a u hs
      cases hs
  | named name body => exact absurd (.inl ⟨name, body, rfl⟩) hkind
  | sum l r => exact absurd (.inr ⟨l, r, rfl⟩) hkind
  | parallel l r =>
    exact enumerates_parallel hle (h l (by simp [unguardedChildren, children]))
      (h r (by simp [unguardedChildren, children]))
  | act a c => exact enumerates_act hle a c
  | restrict c labels => exact enumerates_restrict hle (h c (by simp [unguardedChildren, children]))
  | rename c renames => exact enumerates_rename hle (h c (by simp [unguardedChildren, children]))
  | delay d c => exact enumerates_delay hle d c

/-- What steps leave of a node refers to its subterms and to the targets of the given transitions. -/
theorem within_of_mem_steps {n : Nat} (hc : ∀ c ∈ node.children, c < n)
    (hof : ∀ c, ∀ t ∈ of c, t.target < n) {a : Action} {residual : Residual}
    (h : (a, residual) ∈ node.steps of components) : residual.Within n := by
  cases node with
  | null => cases h
  | named name body =>
    obtain ⟨c, -, h⟩ := List.mem_flatMap.1 h
    obtain ⟨t, ht, heq⟩ := List.mem_map.1 h
    cases heq
    exact hof c t ht
  | sum l r =>
    obtain ⟨c, -, h⟩ := List.mem_flatMap.1 h
    obtain ⟨t, ht, heq⟩ := List.mem_map.1 h
    cases heq
    exact hof c t ht
  | parallel l r =>
    have hl : l < n := hc l (by simp [children])
    have hr : r < n := hc r (by simp [children])
    rcases List.mem_append.1 h with h | h
    · rcases List.mem_append.1 h with h | h
      · obtain ⟨t, ht, heq⟩ := List.mem_map.1 h
        cases heq
        exact ⟨rfl, by simpa [children] using ⟨hof l t ht, hr⟩⟩
      · obtain ⟨t, ht, heq⟩ := List.mem_map.1 h
        cases heq
        exact ⟨rfl, by simpa [children] using ⟨hl, hof r t ht⟩⟩
    · obtain ⟨t, ht, h⟩ := List.mem_flatMap.1 h
      obtain ⟨t', ht', heq⟩ := List.mem_map.1 h
      cases heq
      exact ⟨rfl, by simpa [children] using ⟨hof l t ht, hof r t' ((List.mem_filter.1 ht').1)⟩⟩
  | act b c =>
    cases List.mem_singleton.1 h
    exact hc c (by simp [children])
  | delay d c =>
    cases List.mem_singleton.1 h
    exact hc c (by simp [children])
  | restrict c labels =>
    obtain ⟨t, ht, heq⟩ := List.mem_map.1 h
    cases heq
    exact ⟨rfl, by simpa [children] using hof c t (List.mem_filter.1 ht).1⟩
  | rename c renames =>
    obtain ⟨t, ht, heq⟩ := List.mem_map.1 h
    cases heq
    exact ⟨rfl, by simpa [children] using hof c t ht⟩

end Node

end ProcessCalculus
