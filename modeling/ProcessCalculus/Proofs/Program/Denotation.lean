import ProcessCalculus.Program.Basic
import ProcessCalculus.Proofs.Calculus.Term

/-!
# The terms of a program

An identifier denotes the tree that is found by following the subterms of nodes, down to names. A name is
defined by the tree that the definition of its node denotes.

* `Program.Denotes.unique`: an identifier denotes at most one term.
* `Program.Denotes.of_node`: a node over subterms that denote terms.
-/

namespace ProcessCalculus

namespace Program

/-- The term under an identifier. -/
inductive Denotes (p : Program) : ProcessId → Term → Prop
  | null {id} (h : p.node? id = some .null) : p.Denotes id .null
  | named {id name body} (h : p.node? id = some (.named name body)) : p.Denotes id (.name name)
  | sum {id l r s t} (h : p.node? id = some (.sum l r)) (hl : p.Denotes l s) (hr : p.Denotes r t) :
      p.Denotes id (.sum s t)
  | parallel {id l r s t} (h : p.node? id = some (.parallel l r)) (hl : p.Denotes l s)
      (hr : p.Denotes r t) : p.Denotes id (.parallel s t)
  | act {id a c t} (h : p.node? id = some (.act a c)) (hc : p.Denotes c t) : p.Denotes id (.act a t)
  | restrict {id c labels t} (h : p.node? id = some (.restrict c labels)) (hc : p.Denotes c t) :
      p.Denotes id (.restrict t labels)
  | rename {id c renames t} (h : p.node? id = some (.rename c renames)) (hc : p.Denotes c t) :
      p.Denotes id (.rename t renames)
  | delay {id d c t} (h : p.node? id = some (.delay d c)) (hc : p.Denotes c t) :
      p.Denotes id (.delay d t)

/-- The term that defines a name. -/
def Defines (p : Program) (name : String) (t : Term) : Prop :=
  ∃ id body, p.lookup? name = some id ∧ p.node? id = some (.named name (some body)) ∧ p.Denotes body t

variable {p q : Program} {id : ProcessId} {t u : Term}

namespace Denotes

theorem exists_node (h : p.Denotes id t) : ∃ node, p.node? id = some node := by
  cases h <;> exact ⟨_, by assumption⟩

theorem unique (h : p.Denotes id t) (h' : p.Denotes id u) : t = u := by
  induction h generalizing u with
  | null | named => cases h' <;> simp_all
  | sum _ _ _ ihl ihr | parallel _ _ _ ihl ihr => cases h' <;> grind
  | act _ _ ih | restrict _ _ ih | rename _ _ ih | delay _ _ ih => cases h' <;> grind

theorem of_node {node : Node ProcessId} {m : ProcessId → Term} (h : p.node? id = some node)
    (hc : ∀ c ∈ node.children, p.Denotes c (m c)) : p.Denotes id (node.term m) := by
  cases node with
  | null => exact .null h
  | named name body => exact .named h
  | sum l r => exact .sum h (hc l (by simp [Node.children])) (hc r (by simp [Node.children]))
  | parallel l r => exact .parallel h (hc l (by simp [Node.children])) (hc r (by simp [Node.children]))
  | act a c => exact .act h (hc c (by simp [Node.children]))
  | restrict c labels => exact .restrict h (hc c (by simp [Node.children]))
  | rename c renames => exact .rename h (hc c (by simp [Node.children]))
  | delay d c => exact .delay h (hc c (by simp [Node.children]))

end Denotes

theorem node?_eq_none_iff : p.node? id = none ↔ p.size ≤ id := by
  rw [node?, Option.map_eq_none_iff]
  exact Pool.get?_eq_none_iff

theorem lt_size_of_node? {node : Node ProcessId} (h : p.node? id = some node) : id < p.size := by
  refine Nat.lt_of_not_le fun hn => ?_
  rw [node?_eq_none_iff.2 hn] at h
  cases h

theorem exists_node_of_lt (h : id < p.size) : ∃ node, p.node? id = some node := by
  cases hn : p.node? id with
  | some node => exact ⟨node, rfl⟩
  | none => exact absurd (node?_eq_none_iff.1 hn) (Nat.not_le_of_lt h)

end Program

end ProcessCalculus
