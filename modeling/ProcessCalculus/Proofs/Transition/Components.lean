import ProcessCalculus.Proofs.Program.Guardedness
import ProcessCalculus.Proofs.Transition.Rules

/-!
# Components

The processes from which a process takes its steps. A name takes those of its definition and a sum those of its
operands, where nested sums count as one; every other term former builds on those of its subterms.

* `Program.IsOperands`, `Program.exists_operands`: the operands of nested sums.
* `Program.IsComponents`, `Program.exists_components`: what the components are, and that a process has them unless
  it is a name without a definition.
-/

namespace ProcessCalculus

open Relation Term

/-- The node takes its steps unchanged from its components. -/
def Node.Delegates (node : Node ProcessId) : Prop :=
  (∃ name body, node = .named name body) ∨ ∃ l r, node = .sum l r

namespace Program

/-- The components of a node, in a reading of the program. -/
structure IsComponents (defs : String → Term → Prop) (le : Term → Term → Prop) (r : Reading)
    (id : ProcessId) (node : Node ProcessId) (components : List ProcessId) : Prop where
  lt {c : ProcessId} : c ∈ components → c < r.program.size
  forth {a : Action} {u : Term} : node.Delegates → Step defs (r.term id) a u →
    ∃ c ∈ components, ∃ u', Step defs (r.term c) a u' ∧ le u u'
  back {c : ProcessId} {a : Action} {u' : Term} : node.Delegates → c ∈ components →
    Step defs (r.term c) a u' → ∃ u, Step defs (r.term id) a u ∧ le u u'
  eq : ¬ node.Delegates → components = node.unguardedChildren

variable {r r' : Reading} {defs : String → Term → Prop} {le : Term → Term → Prop} {id : ProcessId}
  {node : Node ProcessId} {components : List ProcessId}

theorem IsComponents.keeps (h : IsComponents defs le r id node components) (hid : id < r.program.size)
    (hk : r.Keeps r') : IsComponents defs le r' id node components where
  lt hc := Nat.lt_of_lt_of_le (h.lt hc) hk.size_le
  forth hd hs := by
    rw [hk.term_eq hid] at hs
    obtain ⟨c, hc, u', hu', hle⟩ := h.forth hd hs
    exact ⟨c, hc, u', by rwa [hk.term_eq (h.lt hc)], hle⟩
  back hd hc hs := by
    rw [hk.term_eq (h.lt hc)] at hs
    rw [hk.term_eq hid]
    exact h.back hd hc hs
  eq := h.eq

/-- The operands of a process: those of nested sums, or else the process alone. They make its steps. -/
structure IsOperands (defs : String → Term → Prop) (le : Term → Term → Prop) (r : Reading) (id : ProcessId)
    (operands : List ProcessId) : Prop where
  lt {c : ProcessId} : c ∈ operands → c < r.program.size
  reaches {c : ProcessId} : c ∈ operands → ReflTransGen r.program.UnguardedEdge id c
  not_sum {c left right : ProcessId} : c ∈ operands → r.program.node? c ≠ some (.sum left right)
  forth {a : Action} {u : Term} : Step defs (r.term id) a u →
    ∃ c ∈ operands, ∃ u', Step defs (r.term c) a u' ∧ le u u'
  back {c : ProcessId} {a : Action} {u' : Term} : c ∈ operands → Step defs (r.term c) a u' →
    ∃ u, Step defs (r.term id) a u ∧ le u u'

namespace IsOperands

private theorem self (hle : Precongruence le) (hnode : r.program.node? id = some node)
    (hsum : ∀ left right, node ≠ .sum left right) : IsOperands defs le r id [id] where
  lt hc := by
    cases List.mem_singleton.1 hc
    exact lt_size_of_node? hnode
  reaches hc := by
    cases List.mem_singleton.1 hc
    exact .refl
  not_sum {c left right} hc heq := by
    cases List.mem_singleton.1 hc
    exact hsum left right (Option.some.inj (hnode.symm.trans heq))
  forth {a u} hs := ⟨id, List.mem_singleton.2 rfl, u, hs, hle.refl u⟩
  back {c a u'} hc hs := by
    cases List.mem_singleton.1 hc
    exact ⟨u', hs, hle.refl u'⟩

private theorem append (hr : r.Valid le) (hle : Precongruence le) {left right : ProcessId} {ls rs : List ProcessId}
    (hnode : r.program.node? id = some (.sum left right)) (hl : IsOperands defs le r left ls)
    (hr' : IsOperands defs le r right rs) : IsOperands defs le r id (ls ++ rs) where
  lt hc := by
    rcases List.mem_append.1 hc with hc | hc
    · exact hl.lt hc
    · exact hr'.lt hc
  reaches hc := by
    rcases List.mem_append.1 hc with hc | hc
    · exact .head ⟨_, hnode, by simp [Node.unguardedChildren, Node.children]⟩ (hl.reaches hc)
    · exact .head ⟨_, hnode, by simp [Node.unguardedChildren, Node.children]⟩ (hr'.reaches hc)
  not_sum hc := by
    rcases List.mem_append.1 hc with hc | hc
    · exact hl.not_sum hc
    · exact hr'.not_sum hc
  forth hs := by
    -- the sum stands for a term that may be another one, so its steps are matched with those of the node
    have hmeans : le (r.term id) (.sum (r.term left) (r.term right)) := hr.node_le hnode
    obtain ⟨u₁, hu₁, hle₁⟩ := (hle.isBisimulation_self defs).forth hmeans hs
    cases hu₁ with
    | sumLeft _ hu₁ =>
      obtain ⟨c, hc, u', hu', hle'⟩ := hl.forth hu₁
      exact ⟨c, List.mem_append_left _ hc, u', hu', hle.trans hle₁ hle'⟩
    | sumRight _ hu₁ =>
      obtain ⟨c, hc, u', hu', hle'⟩ := hr'.forth hu₁
      exact ⟨c, List.mem_append_right _ hc, u', hu', hle.trans hle₁ hle'⟩
  back {c a u'} hc hs := by
    have hmeans : le (r.term id) (.sum (r.term left) (r.term right)) := hr.node_le hnode
    obtain ⟨u₁, hu₁, hle₁⟩ : ∃ u₁, Step defs (.sum (r.term left) (r.term right)) a u₁ ∧ le u₁ u' := by
      rcases List.mem_append.1 hc with hc | hc
      · exact (hl.back hc hs).imp fun _ h => ⟨.sumLeft _ h.1, h.2⟩
      · exact (hr'.back hc hs).imp fun _ h => ⟨.sumRight _ h.1, h.2⟩
    obtain ⟨u, hu, hle'⟩ := (hle.isBisimulation_self defs).back hmeans hu₁
    exact ⟨u, hu, hle.trans hle' hle₁⟩

end IsOperands

/-- The operands of a sum are those of both sides. -/
theorem operands_of_sum {p : Program} {left right : ProcessId} (hnode : p.node? id = some (.sum left right))
    (depth : Nat) :
    p.operands (depth + 1) id = do return (← p.operands depth left) ++ (← p.operands depth right) := by
  rw [operands, Program.node, hnode]
  rfl

/-- What is no sum is its only operand. -/
theorem operands_of_not_sum {p : Program} (hnode : p.node? id = some node)
    (hsum : ∀ left right, node ≠ .sum left right) (depth : Nat) : p.operands (depth + 1) id = .ok [id] := by
  rw [operands, Program.node, hnode]
  cases node with
  | sum left right => exact absurd rfl (hsum left right)
  | _ => rfl

theorem operands_of_none {p : Program} (hnode : p.node? id = none) (depth : Nat) :
    p.operands (depth + 1) id = .error (.missingProcess id) := by
  rw [operands, Program.node, hnode]
  rfl

/-- Where operands are found, they are those of both sides of a sum, or else the process alone. -/
theorem operands_cases {p : Program} {depth : Nat} {operands : List ProcessId}
    (h : p.operands (depth + 1) id = .ok operands) :
    (∃ left right ls rs, p.node? id = some (.sum left right) ∧ p.operands depth left = .ok ls ∧
        p.operands depth right = .ok rs ∧ operands = ls ++ rs) ∨
      ∃ node, p.node? id = some node ∧ (∀ left right, node ≠ .sum left right) ∧ operands = [id] := by
  cases hnode : p.node? id with
  | none =>
    rw [operands_of_none hnode] at h
    cases h
  | some node =>
    by_cases hsum : ∃ left right, node = .sum left right
    · obtain ⟨left, right, rfl⟩ := hsum
      rw [operands_of_sum hnode] at h
      cases hl : p.operands depth left with
      | error e =>
        rw [hl] at h
        cases h
      | ok ls =>
        cases hr : p.operands depth right with
        | error e =>
          rw [hl, hr] at h
          cases h
        | ok rs =>
          rw [hl, hr] at h
          cases h
          exact .inl ⟨left, right, ls, rs, rfl, hl, hr, rfl⟩
    · have hother (left right : ProcessId) : node ≠ .sum left right := fun heq => hsum ⟨left, right, heq⟩
      rw [operands_of_not_sum hnode hother] at h
      cases h
      exact .inr ⟨node, rfl, hother, rfl⟩

/-- Every process has operands. By induction on the depth, which bounds the height of its term. -/
theorem exists_operands (defs : String → Term → Prop) (hr : r.Valid le) (hle : Precongruence le) {depth : Nat}
    (hid : id < r.program.size) (hd : (r.term id).height < depth) :
    ∃ operands, r.program.operands depth id = .ok operands ∧ IsOperands defs le r id operands := by
  induction depth generalizing id with
  | zero => exact absurd hd (Nat.not_lt_zero _)
  | succ depth ih =>
    obtain ⟨node, hnode⟩ := exists_node_of_lt hid
    by_cases hsum : ∃ left right, node = .sum left right
    · obtain ⟨left, right, rfl⟩ := hsum
      have hheight := hle.height_le (hr.node_le hnode)
      simp only [Node.term, height] at hheight
      have hl : left < r.program.size := hr.wellFormed.child_lt hnode left (by simp [Node.children])
      have hr' : right < r.program.size := hr.wellFormed.child_lt hnode right (by simp [Node.children])
      obtain ⟨ls, hls, hleft⟩ := ih hl (by omega)
      obtain ⟨rs, hrs, hright⟩ := ih hr' (by omega)
      refine ⟨ls ++ rs, ?_, .append hr hle hnode hleft hright⟩
      rw [operands_of_sum hnode, hls, hrs]
      rfl
    · have hother (left right : ProcessId) : node ≠ .sum left right := fun heq => hsum ⟨left, right, heq⟩
      exact ⟨[id], operands_of_not_sum hnode hother depth, .self hle hnode hother⟩

/-- A name takes its steps from its definition. -/
private theorem isComponents_named (hr : r.Models le defs) (hle : Precongruence le) {name : String}
    {body : ProcessId} (hnode : r.program.node? id = some (.named name (some body))) :
    IsComponents defs le r id (.named name (some body)) [body] where
  lt hc := by
    cases List.mem_singleton.1 hc
    exact hr.wellFormed.body_lt hnode
  forth _ hs := by
    have hb := hle.isBisimulation_self defs
    obtain ⟨u₁, hu₁, hle₁⟩ := hb.forth (hr.name_le hnode) hs
    cases hu₁ with
    | unfold definition hu₁ =>
      obtain ⟨b, hbody, hbb⟩ := hr.exists_body hnode definition
      cases hbody
      obtain ⟨u', hu', hle'⟩ := hb.forth hbb hu₁
      exact ⟨body, List.mem_singleton.2 rfl, u', hu', hle.trans hle₁ hle'⟩
  back {c a u'} _ hc hs := by
    cases List.mem_singleton.1 hc
    have hb := hle.isBisimulation_self defs
    obtain ⟨t, definition, htb⟩ := hr.exists_def hnode
    obtain ⟨u₁, hu₁, hle₁⟩ := hb.back htb hs
    obtain ⟨u, hu, hle'⟩ := hb.back (hr.name_le hnode) (.unfold definition hu₁)
    exact ⟨u, hu, hle.trans hle' hle₁⟩
  eq hd := absurd (.inl ⟨name, some body, rfl⟩) hd

theorem components_eq {p : Program} : p.node? id = some node → p.components id =
    match node with
    | .named own none => .error (.undefinedName own)
    | .sum .. => p.operands p.depthBound id
    | node => .ok node.unguardedChildren := by
  intro hnode
  rw [components, Program.node, hnode]
  cases node with
  | named name body => cases body <;> rfl
  | _ => rfl

theorem components_eq_none {p : Program} (hnode : p.node? id = none) :
    p.components id = .error (.missingProcess id) := by
  rw [components, Program.node, hnode]
  rfl

/-- Every process but an undefined name has components, to which it leads without an action. -/
theorem exists_components (hr : r.Models le defs) (hle : Precongruence le)
    (hnode : r.program.node? id = some node) (hdef : ∀ name, node ≠ .named name none) :
    ∃ components, r.program.components id = .ok components ∧ IsComponents defs le r id node components ∧
      ∀ c ∈ components, TransGen r.program.UnguardedEdge id c := by
  have hid := lt_size_of_node? hnode
  have hown (hd : ¬ node.Delegates) (heq : r.program.components id = .ok node.unguardedChildren) :
      ∃ components, r.program.components id = .ok components ∧ IsComponents defs le r id node components ∧
        ∀ c ∈ components, TransGen r.program.UnguardedEdge id c := by
    refine ⟨_, heq, ⟨fun hc => ?_, fun h => absurd h hd, fun h => absurd h hd, fun _ => rfl⟩, fun c hc => ?_⟩
    · exact hr.wellFormed.unguardedChild_lt ⟨node, hnode, hc⟩
    · exact .single ⟨node, hnode, hc⟩
  have hcomp := components_eq hnode
  cases node with
  | named name body =>
    cases body with
    | none => exact absurd rfl (hdef name)
    | some body =>
      refine ⟨[body], hcomp, isComponents_named hr hle hnode, fun c hc => ?_⟩
      exact .single ⟨_, hnode, hc⟩
  | sum left right =>
    have hdepth : (r.term id).height < r.program.depthBound :=
      Nat.lt_succ_of_le (Nat.le_trans (hr.height_le hid) (Nat.le_of_lt hid))
    obtain ⟨operands, heq, ho⟩ := exists_operands defs hr.toValid hle hid hdepth
    refine ⟨operands, hcomp.trans heq, ?_, fun c hc => ?_⟩
    · exact ⟨ho.lt, fun _ => ho.forth, fun _ => ho.back, fun hd => absurd (.inr ⟨left, right, rfl⟩) hd⟩
    · rcases reflTransGen_iff_eq_or_transGen.1 (ho.reaches hc) with rfl | hreach
      · -- a sum is none of its own operands
        exact absurd hnode (ho.not_sum hc)
      · exact hreach
  | null => exact hown (by simp [Node.Delegates]) hcomp
  | parallel => exact hown (by simp [Node.Delegates]) hcomp
  | act => exact hown (by simp [Node.Delegates]) hcomp
  | restrict => exact hown (by simp [Node.Delegates]) hcomp
  | rename => exact hown (by simp [Node.Delegates]) hcomp
  | delay => exact hown (by simp [Node.Delegates]) hcomp

end Program

end ProcessCalculus
