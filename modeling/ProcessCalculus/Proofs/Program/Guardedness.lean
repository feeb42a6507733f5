import Mathlib.Data.Fintype.Pigeonhole
import Mathlib.Order.Monotone.Basic
import ProcessCalculus.Program.Guardedness
import ProcessCalculus.Proofs.Order.Rank
import ProcessCalculus.Proofs.Order.Table
import ProcessCalculus.Proofs.Program.Outcome
import ProcessCalculus.Proofs.Program.Reading

/-!
# Guardedness

A process is unguarded if it can be unfolded for ever without an action. When no name is unguarded, the names have
a measure that each unfolding lowers, and every program whose definitions are simplified from these has no
unguarded cycle at all, whatever was added to it.

* `Program.UnguardedEdge`, `Program.Unfolds`: the unguarded edges, as the search reads them off a node, and kind of node
  by kind of node.
* `Program.Unguarded`: an infinite path of unguarded edges.
* `Program.Unguarded.exists_cycle`: where all references lead to nodes, such a path meets a cycle.
* `Program.exists_unfolding`: the measure of names.
* `Reading.Models.exists_ranked`, `Reading.Valid.exists_ranked`: a rank for every later program, and for a program with
  its own definitions.
-/

namespace ProcessCalculus

open Relation Term

namespace Node

/-- The identifiers in a node: its subterms, or the definition of a name. -/
def references : Node ProcessId → List ProcessId
  | .named _ body => body.toList
  | node => node.children

theorem mem_references_of_mem_unguardedChildren (node : Node ProcessId) {c : ProcessId}
    (hc : c ∈ node.unguardedChildren) : c ∈ node.references := by
  cases node with
  | null | act | delay => cases hc
  | _ => exact hc

end Node

namespace Program

/-- The first process leads to the second one without an action. -/
def UnguardedEdge (p : Program) (id child : ProcessId) : Prop :=
  ∃ node, p.node? id = some node ∧ child ∈ node.unguardedChildren

/-- An unguarded edge leads from a defined name to its definition, and from a sum, a parallel composition, a restriction
or a renaming to an operand. -/
inductive Unfolds (p : Program) : ProcessId → ProcessId → Prop
  | define {id body : ProcessId} {name : String} (h : p.node? id = some (.named name (some body))) : Unfolds p id body
  | sumLeft {id left right : ProcessId} (h : p.node? id = some (.sum left right)) : Unfolds p id left
  | sumRight {id left right : ProcessId} (h : p.node? id = some (.sum left right)) : Unfolds p id right
  | parallelLeft {id left right : ProcessId} (h : p.node? id = some (.parallel left right)) : Unfolds p id left
  | parallelRight {id left right : ProcessId} (h : p.node? id = some (.parallel left right)) : Unfolds p id right
  | restrict {id body : ProcessId} {labels : LabelSet} (h : p.node? id = some (.restrict body labels)) :
      Unfolds p id body
  | rename {id body : ProcessId} {renames : Renaming} (h : p.node? id = some (.rename body renames)) :
      Unfolds p id body

/-- The search follows the unguarded edges. -/
theorem unguardedEdge_iff_unfolds {p : Program} {id child : ProcessId} :
    p.UnguardedEdge id child ↔ p.Unfolds id child := by
  constructor
  · rintro ⟨node, hnode, hc⟩
    cases node with
    | null | act | delay => cases hc
    | named name body =>
      cases body with
      | none => cases hc
      | some body =>
        cases List.mem_singleton.1 hc
        exact .define hnode
    | sum left right =>
      simp only [Node.unguardedChildren, Node.children, List.mem_cons, List.not_mem_nil, or_false] at hc
      rcases hc with rfl | rfl
      · exact .sumLeft hnode
      · exact .sumRight hnode
    | parallel left right =>
      simp only [Node.unguardedChildren, Node.children, List.mem_cons, List.not_mem_nil, or_false] at hc
      rcases hc with rfl | rfl
      · exact .parallelLeft hnode
      · exact .parallelRight hnode
    | restrict body labels =>
      cases List.mem_singleton.1 hc
      exact .restrict hnode
    | rename body renames =>
      cases List.mem_singleton.1 hc
      exact .rename hnode
  · intro h
    cases h with
    | define h | sumLeft h | sumRight h | parallelLeft h | parallelRight h | restrict h | rename h =>
      exact ⟨_, h, by simp [Node.unguardedChildren, Node.children]⟩

theorem unfolds_eq (p : Program) : p.Unfolds = p.UnguardedEdge := by
  funext id child
  exact propext unguardedEdge_iff_unfolds.symm

/-- The process can be unfolded for ever without an action. -/
def Unguarded (p : Program) (id : ProcessId) : Prop :=
  ∃ path : Nat → ProcessId, path 0 = id ∧ ∀ k, p.UnguardedEdge (path k) (path (k + 1))

/-- All names are defined, and unguarded edges lower the rank. -/
structure Ranked (p : Program) (rank : ProcessId → Nat) : Prop where
  edge {id child : ProcessId} : p.UnguardedEdge id child → rank child < rank id
  defined {id : ProcessId} {name : String} : p.node? id ≠ some (.named name none)

/-- The subterms of nodes and the definitions of names are nodes of the program. -/
def Closed (p : Program) : Prop :=
  ∀ id < p.size, ∀ node ∈ p.node? id, ∀ c ∈ node.references, c < p.size

instance (p : Program) : Decidable p.Closed :=
  inferInstanceAs (Decidable (∀ id < p.size, ∀ node ∈ p.node? id, ∀ c ∈ node.references, c < p.size))

theorem WellFormed.closed {p : Program} (h : p.WellFormed) : p.Closed := by
  intro id _ node hnode c hc
  cases node with
  | named name body =>
    cases body with
    | none => cases hc
    | some body =>
      cases List.mem_singleton.1 hc
      exact h.body_lt hnode
  | _ => exact h.child_lt hnode c hc

theorem UnguardedEdge.lt_size {p : Program} {id child : ProcessId} (he : p.UnguardedEdge id child) : id < p.size := by
  obtain ⟨node, hnode, -⟩ := he
  exact lt_size_of_node? hnode

theorem Closed.unguardedChild_lt {p : Program} (h : p.Closed) {id child : ProcessId}
    (he : p.UnguardedEdge id child) : child < p.size := by
  have hid := he.lt_size
  obtain ⟨node, hnode, hc⟩ := he
  exact h id hid node hnode child (node.mem_references_of_mem_unguardedChildren hc)

theorem WellFormed.unguardedChild_lt {p : Program} (h : p.WellFormed) {id child : ProcessId}
    (he : p.UnguardedEdge id child) : child < p.size :=
  h.closed.unguardedChild_lt he

theorem unguarded_iff_not_acc {p : Program} {id : ProcessId} :
    p.Unguarded id ↔ ¬ Acc (fun y z => p.UnguardedEdge z y) id := by
  rw [not_acc_iff_exists_descending_chain]
  rfl

namespace Unguarded

variable {p : Program} {id child : ProcessId}

theorem of_edge (he : p.UnguardedEdge id child) (h : p.Unguarded child) : p.Unguarded id := by
  rw [unguarded_iff_not_acc] at *
  exact fun hacc => h (hacc.inv he)

theorem exists_edge (h : p.Unguarded id) : ∃ child, p.UnguardedEdge id child ∧ p.Unguarded child := by
  obtain ⟨path, rfl, hpath⟩ := h
  exact ⟨path 1, hpath 0, fun k => path (k + 1), rfl, fun k => hpath (k + 1)⟩

theorem of_reaches (hreach : ReflTransGen p.UnguardedEdge id child) (h : p.Unguarded child) : p.Unguarded id := by
  induction hreach using ReflTransGen.head_induction_on with
  | refl => exact h
  | head he _ ih => exact of_edge he ih

theorem of_cycle (h : TransGen p.UnguardedEdge id id) : p.Unguarded id := by
  rw [unguarded_iff_not_acc]
  exact fun hacc => not_transGen_self_of_acc hacc h

/-- A finite program has too few processes for an infinite path that never comes back. -/
theorem exists_cycle (hp : p.Closed) (hid : id < p.size) (h : p.Unguarded id) :
    ∃ x, ReflTransGen p.UnguardedEdge id x ∧ TransGen p.UnguardedEdge x x := by
  obtain ⟨path, rfl, hpath⟩ := h
  have hlt (k : Nat) : path k < p.size := by
    induction k with
    | zero => exact hid
    | succ k ih => exact hp.unguardedChild_lt (hpath k)
  have hforth {i j : Nat} (hij : i < j) : TransGen p.UnguardedEdge (path i) (path j) :=
    Nat.rel_of_forall_rel_succ_of_lt (TransGen p.UnguardedEdge) (fun k => .single (hpath k)) hij
  have hback {i j : Nat} (hij : i < j) (heq : path i = path j) :
      ∃ x, ReflTransGen p.UnguardedEdge (path 0) x ∧ TransGen p.UnguardedEdge x x := by
    have hcycle := hforth hij
    rw [← heq] at hcycle
    refine ⟨path i, ?_, hcycle⟩
    rcases Nat.eq_zero_or_pos i with rfl | hi
    · exact .refl
    · exact (hforth hi).to_reflTransGen
  obtain ⟨i, j, hne, heq⟩ := Finite.exists_ne_map_eq_of_infinite fun k => (⟨path k, hlt k⟩ : Fin p.size)
  have heq : path i = path j := congrArg Fin.val heq
  rcases Nat.lt_or_gt_of_ne hne with hij | hji
  · exact hback hij heq
  · exact hback hji heq.symm

end Unguarded

/-- Where unguarded edges lower the rank, terms are unfolded no deeper than ranks say. By induction on the rank: the
operands of a node that is no prefix are behind unguarded edges. -/
private theorem unfolding_le {p : Program} {m : ProcessId → Term} (hp : Reading.Valid (· = ·) ⟨p, m⟩)
    {Reached : ProcessId → Prop} {rank : ProcessId → Nat} {names : String → Nat}
    (hedge : ∀ {x y}, Reached x → p.UnguardedEdge x y → Reached y ∧ rank y < rank x)
    (hnames : ∀ {name id}, p.lookup? name = some id → names name = rank id) {id : ProcessId} (hid : id < p.size)
    (hr : Reached id) : (m id).unfolding names ≤ rank id := by
  induction hk : rank id using Nat.strongRecOn generalizing id with
  | ind k ih =>
    obtain ⟨node, hnode⟩ := exists_node_of_lt hid
    have hchild (c : ProcessId) (hc : c ∈ node.unguardedChildren) : (m c).unfolding names < k := by
      have he : p.UnguardedEdge id c := ⟨node, hnode, hc⟩
      obtain ⟨hrc, hlower⟩ := hedge hr he
      rw [hk] at hlower
      exact Nat.lt_of_le_of_lt (ih (rank c) hlower (hp.wellFormed.unguardedChild_lt he) hrc rfl) hlower
    rw [show m id = node.term m from hp.node_le hnode]
    cases node with
    | null | act | delay => exact Nat.zero_le _
    | named name body => exact Nat.le_of_eq ((hnames (hp.wellFormed.lookup?_of_named hnode)).trans hk)
    | sum l r | parallel l r =>
      have hl := hchild l (by simp [Node.unguardedChildren, Node.children])
      have hr' := hchild r (by simp [Node.unguardedChildren, Node.children])
      simp only [Node.term, unfolding]
      omega
    | restrict c _ | rename c _ => exact hchild c (by simp [Node.unguardedChildren, Node.children])

/-- The names of the program have a measure that every definition lowers, if none of them is unguarded. -/
theorem exists_unfolding {p : Program} {m : ProcessId → Term} (hp : Reading.Valid (· = ·) ⟨p, m⟩)
    (hm : ∀ id, id < p.size → p.Denotes id (m id))
    (hguard : ∀ name id, p.lookup? name = some id → ¬ p.Unguarded id) :
    ∃ names : String → Nat, ∀ name t, p.Defines name t → t.unfolding names < names name := by
  -- a process that no name leads to may well lead to itself, so edges count only behind names
  let Reached (x : ProcessId) : Prop :=
    ∃ name id, p.lookup? name = some id ∧ ReflTransGen p.UnguardedEdge id x
  let E (x y : ProcessId) : Prop := Reached x ∧ p.UnguardedEdge x y
  have hcycle (x : ProcessId) (_ : x < p.size) : ¬ TransGen E x x := by
    intro hx
    obtain ⟨y, hxy, -⟩ := TransGen.head'_iff.1 hx
    obtain ⟨name, id, hl, hreach⟩ := hxy.1
    exact hguard name id hl (.of_reaches hreach (.of_cycle (TransGen.mono (fun _ _ h => h.2) x x hx)))
  obtain ⟨rank, hrank⟩ := exists_rank (fun x y _ h => hp.wellFormed.unguardedChild_lt h.2) hcycle
  have hedge {x y : ProcessId} (hx : Reached x) (he : p.UnguardedEdge x y) : Reached y ∧ rank y < rank x := by
    obtain ⟨node, hnode, -⟩ := id he
    obtain ⟨name, id, hl, hreach⟩ := id hx
    exact ⟨⟨name, id, hl, hreach.tail he⟩, hrank x y (lt_size_of_node? hnode) ⟨hx, he⟩⟩
  let names (name : String) : Nat := (p.lookup? name).elim 0 rank
  have hnames {name : String} {id : ProcessId} (hl : p.lookup? name = some id) : names name = rank id := by
    show (p.lookup? name).elim 0 rank = _
    rw [hl]
    rfl
  refine ⟨names, ?_⟩
  rintro name t ⟨id, body, hl, hnode, ht⟩
  -- the body is behind an unguarded edge from the name
  have he : p.UnguardedEdge id body := ⟨_, hnode, List.mem_singleton.2 rfl⟩
  obtain ⟨hreached, hlower⟩ := hedge ⟨name, id, hl, .refl⟩ he
  have hbody := hp.wellFormed.unguardedChild_lt he
  obtain rfl := ht.unique (hm body hbody)
  rw [hnames hl]
  exact Nat.lt_of_le_of_lt (unfolding_le hp hedge hnames hbody hreached) hlower

namespace Ranked

variable {p : Program} {rank : ProcessId → Nat} {id child : ProcessId}

theorem path (h : p.Ranked rank) (he : TransGen p.UnguardedEdge id child) : rank child < rank id := by
  induction he with
  | single he => exact h.edge he
  | tail _ he ih => exact Nat.lt_trans (h.edge he) ih

end Ranked

end Program

namespace Reading

variable {r r' : Reading} {le : Term → Term → Prop} {defs : String → Term → Prop} {id child : ProcessId}

/-- All names of the program have a definition among the given ones. -/
def Total (defs : String → Term → Prop) (r : Reading) : Prop :=
  ∀ name id, r.program.lookup? name = some id → ∃ t, defs name t

theorem Total.preserves (h : r.Total defs) (hr : r.Preserves r') : r'.Total defs := by
  intro name id hl
  rw [hr.lookup?_eq] at hl
  exact h name id hl

/-- A name without a definition would not be among the given ones. -/
theorem Total.ne_undefined (htotal : r.Total defs) (h : r.Models le defs) {name : String} :
    r.program.node? id ≠ some (.named name none) := by
  intro hnode
  obtain ⟨t, hdef⟩ := htotal name id (h.wellFormed.lookup?_of_named hnode)
  obtain ⟨b, hb, -⟩ := h.exists_body hnode hdef
  cases hb

/-- A program in which no name is undefined has all its definitions. -/
theorem Valid.total (h : r.Valid le) (hle : Precongruence le)
    (hdef : ∀ id name, r.program.node? id ≠ some (.named name none)) (m : ProcessId → Term) :
    Total r.program.Defines ⟨r.program, m⟩ := by
  intro name id hl
  obtain ⟨body, hnode⟩ := h.wellFormed.exists_named_of_lookup? hl
  cases body with
  | none => exact absurd hnode (hdef id name)
  | some body =>
    obtain ⟨t, ht, -⟩ := h.denotes hle (h.wellFormed.body_lt hnode)
    exact ⟨t, id, body, hl, hnode, ht⟩

/-- Unguarded edges lower how deep terms are unfolded. -/
private theorem unfolding_lt (h : r.Models le defs) (hle : Precongruence le) {names : String → Nat}
    (hnames : ∀ name t, defs name t → t.unfolding names < names name) (he : r.program.UnguardedEdge id child) :
    (r.term child).unfolding names < (r.term id).unfolding names := by
  obtain ⟨node, hnode, hc⟩ := he
  have hmeans := hle.unfolding_le (h.node_le hnode) names
  cases node with
  | null | act | delay => cases hc
  | named name body =>
    cases body with
    | none => cases hc
    | some body =>
      cases List.mem_singleton.1 hc
      obtain ⟨t, hdef, htb⟩ := h.exists_def hnode
      have hlt := hnames name t hdef
      have hbody := hle.unfolding_le htb names
      simp only [Node.term, unfolding] at hmeans
      omega
  | sum left right | parallel left right =>
    simp only [Node.unguardedChildren, Node.children, List.mem_cons, List.not_mem_nil, or_false] at hc
    simp only [Node.term, unfolding] at hmeans
    rcases hc with rfl | rfl <;> omega
  | restrict c labels | rename c renames =>
    cases List.mem_singleton.1 hc
    simp only [Node.term, unfolding] at hmeans
    omega

/-- Whatever was done to a program with guarded definitions, its processes have ranks. -/
theorem Models.exists_ranked (h : r.Models le defs) (hle : Precongruence le) (htotal : r.Total defs)
    {names : String → Nat} (hnames : ∀ name t, defs name t → t.unfolding names < names name) :
    ∃ rank, r.program.Ranked rank := by
  have hlower (x y : ProcessId) (hxy : TransGen r.program.UnguardedEdge x y) :
      (r.term y).unfolding names < (r.term x).unfolding names := by
    induction hxy with
    | single he => exact unfolding_lt h hle hnames he
    | tail _ he ih => exact Nat.lt_trans (unfolding_lt h hle hnames he) ih
  obtain ⟨rank, hrank⟩ := exists_rank (fun x y _ he => h.wellFormed.unguardedChild_lt he)
    fun x (_ : x < r.program.size) hx => Nat.lt_irrefl _ (hlower x x hx)
  exact ⟨rank, fun he => hrank _ _ he.lt_size he, htotal.ne_undefined h⟩

/-- A program has ranks if all its names are defined and none is unguarded. -/
theorem Valid.exists_ranked (h : r.Valid Reordered)
    (hdef : ∀ id name, r.program.node? id ≠ some (.named name none))
    (hguard : ∀ name id, r.program.lookup? name = some id → ¬ r.program.Unguarded id) :
    ∃ rank, r.program.Ranked rank := by
  -- read as what its identifiers denote, the program has its own definitions
  obtain ⟨m, hm, hexact⟩ := h.exists_exact
  have hmodels : Models Reordered r.program.Defines ⟨r.program, m⟩ :=
    .of_denotes (hexact Reordered Reordered.refl) fun id hid => ⟨m id, hm id hid, .refl _⟩
  have htotal := h.total Reordered.precongruence hdef m
  obtain ⟨names, hnames⟩ := Program.exists_unfolding (hexact (· = ·) fun _ => rfl) hm hguard
  exact hmodels.exists_ranked Reordered.precongruence htotal hnames

end Reading

end ProcessCalculus
