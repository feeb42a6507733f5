import ProcessCalculus.Proofs.Transition.Components

/-!
# Expandable processes

The rules determine the transitions of a process if, without an action, it leads neither to a name without a
definition nor to a process that leads back to itself. This depends on nothing that is added to a program later.

* `Program.Expandable`: the condition.
* `Program.expandable_of_components`: it holds of a process when it holds of all its components.
* `Program.Blocks`: a fault that tells why the condition fails.
* `Program.not_expandable_iff_unguarded`: when all names are defined, it fails of the unguarded processes.
-/

namespace ProcessCalculus

open Relation

namespace Program

/-- Without an action, the process leads to no name without a definition and to no cycle. -/
def Expandable (p : Program) (id : ProcessId) : Prop :=
  ∀ x, ReflTransGen p.UnguardedEdge id x →
    (∀ name, p.node? x ≠ some (.named name none)) ∧ ¬ TransGen p.UnguardedEdge x x

/-- The fault names something to which the process leads without an action: a name without a definition, or a cycle. -/
inductive Blocks (p : Program) (id : ProcessId) : Fault → Prop
  | undefined {x : ProcessId} {name : String} (hreach : ReflTransGen p.UnguardedEdge id x)
      (hnode : p.node? x = some (.named name none)) : Blocks p id (.undefinedName name)
  | cycle {x : ProcessId} {name : String} (hreach : ReflTransGen p.UnguardedEdge id x)
      (hcycle : TransGen p.UnguardedEdge x x) : Blocks p id (.unguardedUnfolding name)

variable {p : Program} {id c : ProcessId} {fault : Fault}

/-- What stands in the way of expansion, said of the unguarded edges alone. -/
theorem expandable_iff :
    p.Expandable id ↔ ¬ ∃ x, ReflTransGen p.Unfolds id x ∧
      ((∃ name, p.node? x = some (.named name none)) ∨ TransGen p.Unfolds x x) := by
  rw [unfolds_eq]
  unfold Expandable
  push Not
  rfl

theorem Blocks.not_expandable (h : p.Blocks id fault) : ¬ p.Expandable id := by
  intro hexp
  cases h with
  | undefined hreach hnode => exact (hexp _ hreach).1 _ hnode
  | cycle hreach hcycle => exact (hexp _ hreach).2 hcycle

theorem Blocks.of_reaches (hreach : ReflTransGen p.UnguardedEdge id c) (h : p.Blocks c fault) : p.Blocks id fault := by
  cases h with
  | undefined hc hnode => exact .undefined (hreach.trans hc) hnode
  | cycle hc hcycle => exact .cycle (hreach.trans hc) hcycle

theorem Ranked.expandable {rank : ProcessId → Nat} (hr : p.Ranked rank) (id : ProcessId) : p.Expandable id :=
  fun _ _ => ⟨fun _ => hr.defined, fun hcycle => Nat.lt_irrefl _ (hr.path hcycle)⟩

/-- A process is expandable when it is no undefined name and all that it leads to is expandable. -/
theorem expandable_of_edges (hdef : ∀ name, p.node? id ≠ some (.named name none))
    (h : ∀ c, p.UnguardedEdge id c → p.Expandable c) : p.Expandable id := by
  intro x hreach
  rcases ReflTransGen.cases_head hreach with rfl | ⟨c, he, hcx⟩
  · refine ⟨hdef, fun hcycle => ?_⟩
    -- a cycle through `id` is one behind its first edge as well
    obtain ⟨c, he, hback⟩ := TransGen.head'_iff.1 hcycle
    exact (h c he id hback).2 hcycle
  · exact h c he x hcx

/-- A sum is expandable when the operands of nested sums are. By induction on the depth of nesting. -/
private theorem expandable_of_operands {depth : Nat} {operands : List ProcessId}
    (hok : p.operands depth id = .ok operands) (h : ∀ c ∈ operands, p.Expandable c) : p.Expandable id := by
  induction depth generalizing id operands with
  | zero => cases hok
  | succ depth ih =>
    rcases operands_cases hok with ⟨left, right, ls, rs, hnode, hl, hr, rfl⟩ | ⟨-, -, -, rfl⟩
    · have hleft := ih hl fun c hc => h c (List.mem_append_left _ hc)
      have hright := ih hr fun c hc => h c (List.mem_append_right _ hc)
      apply expandable_of_edges
      · intro name hname
        rw [hnode] at hname
        cases hname
      · intro c he
        rw [unguardedEdge_iff_unfolds] at he
        cases he <;> simp_all
    · exact h id (List.mem_singleton_self id)

/-- A process that has components is expandable when they are. -/
theorem expandable_of_components {components : List ProcessId} (hok : p.components id = .ok components)
    (h : ∀ c ∈ components, p.Expandable c) : p.Expandable id := by
  cases hnode : p.node? id with
  | none =>
    rw [components_eq_none hnode] at hok
    cases hok
  | some node =>
    rw [components_eq hnode] at hok
    have hown (heq : components = node.unguardedChildren) (hdef : ∀ name, node ≠ .named name none) :
        p.Expandable id := by
      apply expandable_of_edges
      · intro name hname
        exact hdef name (Option.some.inj (hnode.symm.trans hname))
      · rintro c ⟨node', hnode', hc⟩
        obtain rfl : node = node' := Option.some.inj (hnode.symm.trans hnode')
        exact h c (heq ▸ hc)
    cases node with
    | named name body =>
      cases body with
      | none => cases hok
      | some body => exact hown (Except.ok.inj hok).symm nofun
    | sum left right => exact expandable_of_operands hok h
    | _ => exact hown (Except.ok.inj hok).symm nofun

/-- When all names are defined, a process of a finite program is unguarded if it is not expandable. -/
theorem not_expandable_iff_unguarded (hp : p.Closed) (hid : id < p.size)
    (hdef : ∀ x name, p.node? x ≠ some (.named name none)) : ¬ p.Expandable id ↔ p.Unguarded id := by
  constructor
  · intro h
    unfold Expandable at h
    push Not at h
    obtain ⟨x, hreach, hx⟩ := h
    exact .of_reaches hreach (.of_cycle (hx (hdef x)))
  · intro h hexp
    obtain ⟨x, hreach, hcycle⟩ := h.exists_cycle hp hid
    exact (hexp x hreach).2 hcycle

end Program

namespace Reading.Extends

variable {r r' : Reading} {id x : ProcessId} {fault : Fault}

theorem edge (h : r.Extends r') {child : ProcessId} (he : r.program.UnguardedEdge id child) :
    r'.program.UnguardedEdge id child := by
  have hid := he.lt_size
  obtain ⟨node, hnode, hc⟩ := he
  exact ⟨node, (h.node?_eq hid).trans hnode, hc⟩

/-- Additions do not make old processes lead anywhere else. -/
theorem of_edge (h : r.Extends r') (hid : id < r.program.size) {child : ProcessId}
    (he : r'.program.UnguardedEdge id child) : r.program.UnguardedEdge id child := by
  obtain ⟨node, hnode, hc⟩ := he
  exact ⟨node, (h.node?_eq hid).symm.trans hnode, hc⟩

theorem of_reaches (h : r.Extends r') (hw : r.program.WellFormed) (hid : id < r.program.size)
    (hreach : ReflTransGen r'.program.UnguardedEdge id x) :
    ReflTransGen r.program.UnguardedEdge id x ∧ x < r.program.size := by
  induction hreach with
  | refl => exact ⟨.refl, hid⟩
  | tail _ he ih =>
    have he := h.of_edge ih.2 he
    exact ⟨ih.1.tail he, hw.unguardedChild_lt he⟩

theorem of_transGen (h : r.Extends r') (hw : r.program.WellFormed) (hid : id < r.program.size)
    (hreach : TransGen r'.program.UnguardedEdge id x) : TransGen r.program.UnguardedEdge id x := by
  obtain ⟨y, he, hyx⟩ := TransGen.head'_iff.1 hreach
  have he := h.of_edge hid he
  exact .head' he (h.of_reaches hw (hw.unguardedChild_lt he) hyx).1

theorem expandable_iff (h : r.Extends r') (hw : r.program.WellFormed) (hid : id < r.program.size) :
    r'.program.Expandable id ↔ r.program.Expandable id := by
  constructor
  · intro hexp x hreach
    obtain ⟨hdef, hcycle⟩ := hexp x (ReflTransGen.mono (fun _ _ => h.edge) _ _ hreach)
    refine ⟨fun name hname => ?_, fun hx => hcycle (TransGen.mono (fun _ _ => h.edge) _ _ hx)⟩
    exact hdef name ((h.node?_eq (Program.lt_size_of_node? hname)).trans hname)
  · intro hexp x hreach
    obtain ⟨hreach, hx⟩ := h.of_reaches hw hid hreach
    obtain ⟨hdef, hcycle⟩ := hexp x hreach
    rw [h.node?_eq hx]
    exact ⟨hdef, fun hx' => hcycle (h.of_transGen hw hx hx')⟩

theorem of_blocks (h : r.Extends r') (hw : r.program.WellFormed) (hid : id < r.program.size)
    (hb : r'.program.Blocks id fault) : r.program.Blocks id fault := by
  cases hb with
  | undefined hreach hnode =>
    obtain ⟨hreach, hx⟩ := h.of_reaches hw hid hreach
    exact .undefined hreach ((h.node?_eq hx).symm.trans hnode)
  | cycle hreach hcycle =>
    obtain ⟨hreach, hx⟩ := h.of_reaches hw hid hreach
    exact .cycle hreach (h.of_transGen hw hx hcycle)

end Reading.Extends

end ProcessCalculus
