import ProcessCalculus.Proofs.Program.GuardednessSearch

/-!
# Exposed names

A name is exposed in a term if it is not behind a prefix. Whether a process is unguarded depends on the names that
are exposed in its term and in the definitions, not on the nodes that a program keeps for them. The laws of the
calculus neither hide nor expose a name, so no pass changes which names are unguarded.

* `Term.Simplifies.exposes_iff`: simplified terms expose the same names.
* `Reading.Models.unguarded_iff`: unguarded processes, by the terms that identifiers stand for.
* `Reading.Models.unguarded_eq`: two programs with the same names and definitions have the same unguarded names.
-/

namespace ProcessCalculus

open Relation Term

namespace Term

/-- The name occurs in the term outside all prefixes. -/
def Exposes (n : String) : Term → Prop
  | null | act .. | delay .. => False
  | name m => m = n
  | sum l r | parallel l r => l.Exposes n ∨ r.Exposes n
  | restrict t _ | rename t _ => t.Exposes n

/-- The definition of the first name exposes the second one. -/
def Uncovers (defs : String → Term → Prop) (m n : String) : Prop :=
  ∃ t, defs m t ∧ t.Exposes n

/-- From the name, definitions can be followed for ever without an action. -/
def Endless (defs : String → Term → Prop) (n : String) : Prop :=
  ¬ Acc (fun n m => Uncovers defs m n) n

/-- Operands that a law drops expose nothing, or what the other operand exposes. -/
theorem Simplifies.exposes_iff {s t : Term} (h : Simplifies s t) (n : String) : t.Exposes n ↔ s.Exposes n := by
  induction h with
  | null | name | act | delay => rfl
  | sum _ _ ihl ihr | parallel _ _ ihl ihr => exact or_congr ihl ihr
  | sumSwap _ _ ihl ihr | parallelSwap _ _ ihl ihr => exact (or_congr ihr ihl).trans or_comm
  | sumNullLeft _ _ ihl ihr | parallelNullLeft _ _ ihl ihr => simp only [Exposes, ← ihl, ← ihr, false_or]
  | sumNullRight _ _ ihl ihr | parallelNullRight _ _ ihl ihr => simp only [Exposes, ← ihl, ← ihr, or_false]
  | sumSame _ _ ihl ihr => simp only [Exposes, ← ihl, ← ihr, or_self]
  | restrict _ _ ih | restrictNull _ _ ih | restrictEmpty _ _ ih | restrictMerge _ _ ih | rename _ _ ih
  | renameNull _ _ ih => exact ih

end Term

namespace Node

variable {m : ProcessId → Term} {node : Node ProcessId} {n : String}

/-- A node exposes its own name, or what the subterms expose to which it leads without an action. -/
theorem exposes_term_iff : (node.term m).Exposes n ↔
    node.name? = some n ∨ node.name? = none ∧ ∃ c ∈ node.unguardedChildren, (m c).Exposes n := by
  cases node <;> simp [term, Exposes, name?, unguardedChildren, children]

end Node

namespace Reading

variable {r r' : Reading} {defs : String → Term → Prop} {id : ProcessId}

namespace Models

/-- A node exposes no more than the term that its identifier stands for, so a process is accessible if the nodes of
all exposed names are. By induction on the height of the term. -/
private theorem acc_of_names (h : r.Models Simplifies defs) (hid : id < r.program.size)
    (hnames : ∀ n, (r.term id).Exposes n → ∀ x body, r.program.node? x = some (.named n body) →
      Acc (fun y z => r.program.UnguardedEdge z y) x) :
    Acc (fun y z => r.program.UnguardedEdge z y) id := by
  induction hk : (r.term id).height using Nat.strongRecOn generalizing id with
  | ind k ih =>
    obtain ⟨node, hnode⟩ := Program.exists_node_of_lt hid
    have hle := h.node_le hnode
    by_cases hname : ∃ n body, node = .named n body
    · obtain ⟨n, body, rfl⟩ := hname
      exact hnames n ((hle.exposes_iff n).1 rfl) id body hnode
    refine ⟨_, fun c he => ?_⟩
    obtain ⟨node', hnode', hc⟩ := he
    obtain rfl : node = node' := Option.some.inj (hnode.symm.trans hnode')
    have hnone : node.name? = none := Node.name?_eq_none_iff.2 fun n body hn => hname ⟨n, body, hn⟩
    have hmem : c ∈ node.children := by
      cases node <;> first | exact hc | cases hc | cases hnone
    have hlt : (r.term c).height < k := by
      have hlow := Node.height_lt_of_mem_children (m := r.term) hmem
      have hge := hle.height_le
      omega
    refine ih _ hlt (h.wellFormed.child_lt hnode c hmem) (fun n hn => ?_) rfl
    exact hnames n ((hle.exposes_iff n).1 (Node.exposes_term_iff.2 (.inr ⟨hnone, c, hc, hn⟩)))

/-- The node of a name leads on as its definition does. By induction on the names that definitions uncover. -/
private theorem acc_of_name (h : r.Models Simplifies defs) {n : String} (hn : Acc (fun n m => Uncovers defs m n) n)
    {body : Option ProcessId} (hnode : r.program.node? id = some (.named n body)) :
    Acc (fun y z => r.program.UnguardedEdge z y) id := by
  induction hn generalizing id body with
  | intro n _ ih =>
    refine ⟨_, fun c he => ?_⟩
    obtain ⟨node, hnode', hc⟩ := he
    obtain rfl : Node.named n body = node := Option.some.inj (hnode.symm.trans hnode')
    obtain rfl : body = some c := by simpa [Node.unguardedChildren] using hc
    obtain ⟨t, hdef, htb⟩ := h.exists_def hnode
    exact h.acc_of_names (h.wellFormed.body_lt hnode) fun n' hn' _ _ =>
      ih n' ⟨t, hdef, (htb.exposes_iff n').1 hn'⟩

/-- What an accessible process exposes is accessible. By induction on the processes that follow. -/
private theorem acc_name_of_acc (h : r.Models Simplifies defs)
    (hacc : Acc (fun y z => r.program.UnguardedEdge z y) id) (hid : id < r.program.size) {n : String}
    (hn : (r.term id).Exposes n) : Acc (fun n m => Uncovers defs m n) n := by
  induction hacc generalizing n with
  | intro id _ ih =>
    obtain ⟨node, hnode⟩ := Program.exists_node_of_lt hid
    have hedge {c : ProcessId} (hc : c ∈ node.unguardedChildren) : r.program.UnguardedEdge id c := ⟨node, hnode, hc⟩
    rcases Node.exposes_term_iff.1 (((h.node_le hnode).exposes_iff n).2 hn) with hname | ⟨-, c, hc, hcn⟩
    · obtain ⟨body, rfl⟩ := Node.name?_eq_some_iff.1 hname
      refine ⟨_, fun n' hn' => ?_⟩
      obtain ⟨t, hdef, ht⟩ := hn'
      obtain ⟨b, rfl, htb⟩ := h.exists_body hnode hdef
      exact ih b (hedge (by simp [Node.unguardedChildren])) (h.wellFormed.body_lt hnode) ((htb.exposes_iff n').2 ht)
    · exact ih c (hedge hc) (h.wellFormed.unguardedChild_lt (hedge hc)) hcn

/-- A process is unguarded if its term exposes a name from which definitions can be followed for ever. -/
theorem unguarded_iff (h : r.Models Simplifies defs) (hid : id < r.program.size) :
    r.program.Unguarded id ↔ ∃ n, (r.term id).Exposes n ∧ Endless defs n := by
  rw [Program.unguarded_iff_not_acc, ← not_iff_not, not_not]
  constructor
  · rintro hacc ⟨n, hn, hendless⟩
    exact hendless (h.acc_name_of_acc hacc hid hn)
  · intro hnone
    refine h.acc_of_names hid fun n hn x body hnode => h.acc_of_name ?_ hnode
    by_contra hendless
    exact hnone ⟨n, hn, hendless⟩

theorem unguarded_iff_of_keeps (h : r.Models Simplifies defs) (h' : r'.Models Simplifies defs) (hk : r.Keeps r')
    (hid : id < r.program.size) : r'.program.Unguarded id ↔ r.program.Unguarded id := by
  rw [h.unguarded_iff hid, h'.unguarded_iff (Nat.lt_of_lt_of_le hid hk.size_le), hk.term_eq hid]

theorem unguarded_eq (h : r.Models Simplifies defs) (h' : r'.Models Simplifies defs) (hp : r.Preserves r') :
    r'.program.unguarded = r.program.unguarded := by
  classical
  rw [Guardedness.unguarded_eq_filter h.wellFormed.closed fun id hid => h.wellFormed.lt_of_mem_named hid,
    Guardedness.unguarded_eq_filter h'.wellFormed.closed fun id hid => h'.wellFormed.lt_of_mem_named hid,
    Program.named_eq hp.lookup?_eq]
  refine congrArg Except.ok (List.filter_congr fun id hid => ?_)
  rw [decide_eq_decide]
  exact h.unguarded_iff_of_keeps h' hp.toKeeps (h.wellFormed.lt_of_mem_named hid)

end Models

end Reading

end ProcessCalculus
