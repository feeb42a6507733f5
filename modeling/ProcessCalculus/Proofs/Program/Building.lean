import Mathlib.Logic.Relation
import ProcessCalculus.Proofs.Order.Table
import ProcessCalculus.Proofs.Program.Denotation
import ProcessCalculus.Proofs.Program.Outcome

/-!
# Building programs

The programs that come from building: nodes are added over identifiers that were issued before, names are
mentioned and defined.

* `BuildStep`, `Built`: one step of building, and the programs that are built from nothing.
* `Program.WellFormed`: the subterms and definitions of nodes are issued, and each known name has one node.
* `Built.wellFormed`: programs that are built are well-formed.
-/

namespace ProcessCalculus

/-- A step of building a program. Subterms are issued identifiers, and names are entered by mentioning them. -/
inductive BuildStep : Program → Program → Prop
  | add {p : Program} {node : Node ProcessId} (hn : node.name? = none)
      (hc : ∀ c ∈ node.children, c < p.size) : BuildStep p (p.add node).2
  | mention (p : Program) (name : String) : BuildStep p (p.mention name).2
  | define (p : Program) (name : String) (body : ProcessId) : BuildStep p (after (Program.define name body) p)

/-- The program is built from nothing. -/
def Built (p : Program) : Prop :=
  Relation.ReflTransGen BuildStep ∅ p

namespace Program

/-- All references lead to nodes, the table of names lists exactly the nodes of names, and each node is stored under its
own identifier. -/
structure WellFormed (p : Program) : Prop where
  child_lt {id : ProcessId} {node : Node ProcessId} :
    p.node? id = some node → ∀ c ∈ node.children, c < p.size
  body_lt {id : ProcessId} {name : String} {body : ProcessId} :
    p.node? id = some (.named name (some body)) → body < p.size
  lookup?_eq_some_iff {id : ProcessId} {name : String} :
    p.lookup? name = some id ↔ (p.node? id).bind Node.name? = some name
  id_eq {id : ProcessId} {stored : ProcessNode} : p.stored? id = some stored → stored.id = id

variable {p q : Program}

@[simp] theorem node?_empty (id : ProcessId) : (∅ : Program).node? id = none := by
  rw [node?_eq_none_iff]
  exact Nat.zero_le id

@[simp] theorem lookup?_empty (name : String) : (∅ : Program).lookup? name = none :=
  Std.TreeMap.getElem?_emptyc

@[simp] theorem lookup?_add (p : Program) (node : Node ProcessId) (name : String) :
    (p.add node).2.lookup? name = p.lookup? name := rfl

@[simp] theorem lookup?_write (p : Program) (id : ProcessId) (node : Node ProcessId) (name : String) :
    (p.write id node).lookup? name = p.lookup? name := rfl

/-- What stands at an identifier after a node of the program is rewritten. -/
theorem node?_write_of_lt {id : ProcessId} (h : id < p.size) (node : Node ProcessId)
    (other : ProcessId) :
    (p.write id node).node? other = if id = other then some node else p.node? other := by
  obtain ⟨old, hold⟩ := exists_node_of_lt h
  rw [node?_write, hold]
  rfl

theorem mem_named {id : ProcessId} : id ∈ p.named ↔ ∃ name, p.lookup? name = some id := by
  simp only [named, List.mem_map, Prod.exists, exists_eq_right, Std.TreeMap.mem_toList_iff_getElem?_eq_some]
  rfl

/-- Programs that know the same names under the same identifiers list them alike. -/
theorem named_eq (h : ∀ name, q.lookup? name = p.lookup? name) : q.named = p.named := by
  have heq : q.names.Equiv p.names := .of_forall_constGet?_eq h
  rw [named, named, heq.toList_eq]

theorem mention_of_known {name : String} {id : ProcessId} (h : p.lookup? name = some id) :
    p.mention name = (id, p) := by
  unfold mention
  rw [h]

theorem mention_of_new {name : String} (h : p.lookup? name = none) :
    (p.mention name).1 = p.size ∧ (p.mention name).2.size = p.size + 1 ∧
      (∀ id, (p.mention name).2.node? id =
        if id = p.size then some (.named name none) else p.node? id) ∧
      ∀ other, (p.mention name).2.lookup? other =
        if other = name then some p.size else p.lookup? other := by
  unfold mention
  rw [h]
  refine ⟨rfl, size_add p _, fun id => node?_add p _ id, fun other => ?_⟩
  show (p.names.insert name p.size)[other]? = _
  rw [Table.getElem?_insert]
  by_cases ho : other = name
  · simp [ho]
  · simp [ho, Ne.symm ho, lookup?]

theorem size_le_size_mention (p : Program) (name : String) : p.size ≤ (p.mention name).2.size := by
  cases hl : p.lookup? name with
  | some id => exact Nat.le_of_eq (by rw [mention_of_known hl])
  | none =>
    rw [(mention_of_new hl).2.1]
    exact Nat.le_succ _

/-- A definition that fails has at most entered the name. Otherwise the node of the name now has the definition. -/
theorem after_define (p : Program) (name : String) (body : ProcessId) :
    after (define name body) p = p ∨ after (define name body) p = (p.mention name).2 ∨
      body < p.size ∧ ∃ id own, (p.mention name).2.node? id = some (.named own none) ∧
        after (define name body) p = (p.mention name).2.write id (.named own (some body)) := by
  refine Ends.after (P := fun q => q = p ∨ q = (p.mention name).2 ∨ body < p.size ∧
    ∃ id own, (p.mention name).2.node? id = some (.named own none) ∧
      q = (p.mention name).2.write id (.named own (some body))) ?_
  unfold define
  rw [ends_bind, ends_get]
  split
  · rw [ends_bind, ends_throw]
    exact .inl rfl
  · rename_i hb
    have hb : body < p.size := by
      cases h : p.node? body with
      | none => simp [h] at hb
      | some node => exact lt_size_of_node? h
    rw [ends_bind, ends_modifyGet, ends_bind, ends_get]
    split
    · rename_i own h
      rw [ends_bind, ends_modify]
      exact .inr (.inr ⟨hb, _, own, h, rfl⟩)
    · exact .inr (.inl rfl)

namespace WellFormed

theorem empty : (∅ : Program).WellFormed where
  child_lt h := by simp at h
  body_lt h := by simp at h
  lookup?_eq_some_iff := by simp
  id_eq {id stored} h := by
    have hnode := node?_empty id
    rw [node?, h] at hnode
    cases hnode

variable {id : ProcessId} {old node : Node ProcessId}

/-- A node that is no name is added over nodes that are there. -/
theorem add (h : p.WellFormed) (hn : node.name? = none) (hc : ∀ c ∈ node.children, c < p.size) :
    (p.add node).2.WellFormed where
  child_lt {id other} ho c hm := by
    rw [node?_add] at ho
    rw [size_add]
    split at ho
    · cases ho
      exact Nat.lt_succ_of_lt (hc c hm)
    · exact Nat.lt_succ_of_lt (h.child_lt ho c hm)
  body_lt {id name body} ho := by
    rw [node?_add] at ho
    rw [size_add]
    split at ho
    · cases ho
      cases hn
    · exact Nat.lt_succ_of_lt (h.body_lt ho)
  lookup?_eq_some_iff {id name} := by
    rw [lookup?_add, h.lookup?_eq_some_iff, node?_add]
    split
    · rename_i hid
      rw [hid, node?_eq_none_iff.2 (Nat.le_refl _), Option.bind_some, hn, Option.bind_none]
    · rfl
  id_eq {id stored} hs := by
    rw [stored?_add] at hs
    split at hs
    · rename_i hid
      cases hs
      exact hid.symm
    · exact h.id_eq hs

/-- A node is replaced by another one over nodes that are there, which stands for the same name if any. -/
theorem write (h : p.WellFormed) (hid : p.node? id = some old) (hn : node.name? = old.name?)
    (hc : ∀ c ∈ node.children, c < p.size)
    (hb : ∀ name body, node = .named name (some body) → body < p.size) :
    (p.write id node).WellFormed where
  child_lt {other n} ho c hm := by
    rw [node?_write_of_lt (lt_size_of_node? hid)] at ho
    rw [size_write]
    split at ho
    · cases ho
      exact hc c hm
    · exact h.child_lt ho c hm
  body_lt {other name body} ho := by
    rw [node?_write_of_lt (lt_size_of_node? hid)] at ho
    rw [size_write]
    split at ho
    · cases ho
      exact hb name body rfl
    · exact h.body_lt ho
  lookup?_eq_some_iff {other name} := by
    rw [lookup?_write, h.lookup?_eq_some_iff, node?_write_of_lt (lt_size_of_node? hid)]
    split
    · rename_i hid'
      rw [← hid', hid, Option.bind_some, Option.bind_some, hn]
    · rfl
  id_eq {other stored} hs := by
    rw [stored?_write] at hs
    split at hs
    · rename_i hother
      obtain ⟨old, hold, rfl⟩ := Option.map_eq_some_iff.1 hs
      exact (h.id_eq hold).trans hother
    · exact h.id_eq hs

theorem mention (h : p.WellFormed) (name : String) : (p.mention name).2.WellFormed := by
  cases hl : p.lookup? name with
  | some id =>
    rw [mention_of_known hl]
    exact h
  | none =>
    obtain ⟨-, hsize, hnode, hlookup⟩ := mention_of_new hl
    constructor
    · intro id node hid c hc
      rw [hnode] at hid
      rw [hsize]
      split at hid
      · cases hid
        cases hc
      · exact Nat.lt_succ_of_lt (h.child_lt hid c hc)
    · intro id other body hid
      rw [hnode] at hid
      rw [hsize]
      split at hid
      · cases hid
      · exact Nat.lt_succ_of_lt (h.body_lt hid)
    · intro id other
      rw [hlookup, hnode]
      by_cases hid : id = p.size
      · have hnone : p.lookup? other ≠ some p.size := by
          rw [Ne, h.lookup?_eq_some_iff, node?_eq_none_iff.2 (Nat.le_refl _)]
          simp
        by_cases ho : other = name
        · simp [hid, ho, Node.name?]
        · simp [hid, ho, hnone, Ne.symm ho, Node.name?]
      · rw [if_neg hid, ← h.lookup?_eq_some_iff]
        by_cases ho : other = name
        · simp [ho, hl, Ne.symm hid]
        · simp [ho]
    · intro id stored hs
      have hadded : (p.add (.named name none)).2.stored? id = some stored := by
        simpa [Program.mention, hl, stored?] using hs
      rw [stored?_add] at hadded
      split at hadded
      · rename_i hid
        cases hadded
        exact hid.symm
      · exact h.id_eq hadded

theorem lookup?_of_named (h : p.WellFormed) {name : String} {body : Option ProcessId}
    (hnode : p.node? id = some (.named name body)) : p.lookup? name = some id := by
  rw [h.lookup?_eq_some_iff, hnode]
  rfl

theorem exists_named_of_lookup? (h : p.WellFormed) {name : String} (hl : p.lookup? name = some id) :
    ∃ body, p.node? id = some (.named name body) := by
  obtain ⟨node, hnode, hname⟩ := Option.bind_eq_some_iff.1 (h.lookup?_eq_some_iff.1 hl)
  obtain ⟨body, rfl⟩ := Node.name?_eq_some_iff.1 hname
  exact ⟨body, hnode⟩

theorem lt_of_mem_named (h : p.WellFormed) (hid : id ∈ p.named) : id < p.size := by
  obtain ⟨name, hl⟩ := mem_named.1 hid
  obtain ⟨body, hnode⟩ := h.exists_named_of_lookup? hl
  exact lt_size_of_node? hnode

theorem mem_undefinedNames (h : p.WellFormed) {name : String} :
    name ∈ p.undefinedNames ↔ ∃ id, p.node? id = some (.named name none) := by
  rw [undefinedNames, List.mem_filterMap]
  constructor
  · rintro ⟨id, -, hid⟩
    split at hid
    · rename_i name' hnode
      cases hid
      exact ⟨id, hnode⟩
    · cases hid
  · rintro ⟨id, hnode⟩
    refine ⟨id, mem_named.2 ⟨name, h.lookup?_of_named hnode⟩, ?_⟩
    rw [hnode]

/-- No name is listed as undefined exactly if every node of a name has a definition. -/
theorem undefinedNames_eq_nil_iff (h : p.WellFormed) :
    p.undefinedNames = [] ↔ ∀ id name, p.node? id ≠ some (.named name none) := by
  rw [List.eq_nil_iff_forall_not_mem]
  constructor
  · exact fun hnone id name hnode => hnone name (h.mem_undefinedNames.2 ⟨id, hnode⟩)
  · intro hdef name hmem
    obtain ⟨id, hnode⟩ := h.mem_undefinedNames.1 hmem
    exact hdef id name hnode

/-- Undefined names are listed in order, since the table lists each name with its own node. -/
theorem undefinedNames_sorted (h : p.WellFormed) : p.undefinedNames.Pairwise (· < ·) := by
  rw [undefinedNames, named, List.filterMap_map, List.pairwise_filterMap]
  refine (Std.TreeMap.ordered_keys_toList (t := p.names)).imp_of_mem ?_
  intro entry entry' hentry hentry' hlt name hname name' hname'
  have hown {entry : String × ProcessId} (hentry : entry ∈ p.names.toList) {name : String}
      (hname : p.node? entry.2 = some (.named name none)) : name = entry.1 := by
    have hl : p.lookup? entry.1 = some entry.2 := Std.TreeMap.mem_toList_iff_getElem?_eq_some.1 hentry
    obtain ⟨body, hnode⟩ := h.exists_named_of_lookup? hl
    rw [hnode] at hname
    cases hname
    rfl
  simp only [Function.comp_apply] at hname hname'
  split at hname
  · rename_i own hnode
    split at hname'
    · rename_i own' hnode'
      cases hname
      cases hname'
      rw [hown hentry hnode, hown hentry' hnode']
      exact compareOfLessAndEq_eq_lt.1 hlt
    · cases hname'
  · cases hname

end WellFormed

end Program

/-- Building keeps programs well-formed. -/
theorem BuildStep.wellFormed {p q : Program} (h : BuildStep p q) (hp : p.WellFormed) : q.WellFormed := by
  cases h with
  | add hn hc => exact hp.add hn hc
  | mention name => exact hp.mention name
  | define name body =>
    rcases p.after_define name body with h | h | ⟨hb, id, own, hid, h⟩ <;> rw [h]
    · exact hp
    · exact hp.mention name
    · refine (hp.mention name).write hid rfl (by simp [Node.children]) fun other b ho => ?_
      cases ho
      exact Nat.lt_of_lt_of_le hb (p.size_le_size_mention name)

/-- What was built before keeps its key. -/
theorem BuildStep.exists_key {p q : Program} (h : BuildStep p q) {id : ProcessId} {node : Node ProcessId}
    (hid : id < p.size) (hnode : q.node? id = some node) :
    ∃ old, p.node? id = some old ∧ old.key = node.key ∧ old.isOperator = node.isOperator := by
  have hmention (name : String) {n : Node ProcessId} (hn : (p.mention name).2.node? id = some n) :
      p.node? id = some n := by
    cases hl : p.lookup? name with
    | some other => rwa [Program.mention_of_known hl] at hn
    | none =>
      rw [(Program.mention_of_new hl).2.2.1, if_neg (Nat.ne_of_lt hid)] at hn
      exact hn
  cases h with
  | add =>
    rw [Program.node?_add, if_neg (Nat.ne_of_lt hid)] at hnode
    exact ⟨node, hnode, rfl, rfl⟩
  | mention name => exact ⟨node, hmention name hnode, rfl, rfl⟩
  | define name body =>
    rcases p.after_define name body with h | h | ⟨-, other, own, hother, h⟩ <;> rw [h] at hnode
    · exact ⟨node, hnode, rfl, rfl⟩
    · exact ⟨node, hmention name hnode, rfl, rfl⟩
    · rw [Program.node?_write_of_lt (Program.lt_size_of_node? hother)] at hnode
      split at hnode
      · rename_i heq
        cases hnode
        exact ⟨.named own none, hmention name (heq ▸ hother), rfl, rfl⟩
      · exact ⟨node, hmention name hnode, rfl, rfl⟩

theorem BuildStep.size_le {p q : Program} (h : BuildStep p q) : p.size ≤ q.size := by
  cases h with
  | add =>
    rw [Program.size_add]
    exact Nat.le_succ _
  | mention name => exact p.size_le_size_mention name
  | define name body =>
    rcases p.after_define name body with h | h | ⟨-, id, own, -, h⟩
    · exact Nat.le_of_eq (congrArg Program.size h).symm
    · rw [h]
      exact p.size_le_size_mention name
    · rw [h, Program.size_write]
      exact p.size_le_size_mention name

theorem size_le_of_built {p q : Program} (h : Relation.ReflTransGen BuildStep p q) : p.size ≤ q.size := by
  induction h with
  | refl => exact Nat.le_refl _
  | tail _ hstep ih => exact Nat.le_trans ih hstep.size_le

theorem wellFormed_of_built {p q : Program} (h : Relation.ReflTransGen BuildStep p q) (hp : p.WellFormed) :
    q.WellFormed := by
  induction h with
  | refl => exact hp
  | tail _ hstep ih => exact hstep.wellFormed ih

/-- A step of building does not move names. -/
theorem BuildStep.lookup?_eq {p q : Program} (h : BuildStep p q) {name : String} {id : ProcessId}
    (hl : p.lookup? name = some id) : q.lookup? name = some id := by
  have hmention (other : String) : (p.mention other).2.lookup? name = some id := by
    cases ho : p.lookup? other with
    | some x => rwa [Program.mention_of_known ho]
    | none =>
      rw [(Program.mention_of_new ho).2.2.2, if_neg]
      · exact hl
      · rintro rfl
        rw [ho] at hl
        cases hl
  cases h with
  | add => exact hl
  | mention other => exact hmention other
  | define other body =>
    rcases p.after_define other body with h | h | ⟨-, x, own, -, h⟩ <;> rw [h]
    · exact hl
    · exact hmention other
    · exact hmention other

theorem Built.wellFormed {p : Program} (h : Built p) : p.WellFormed :=
  wellFormed_of_built h .empty

end ProcessCalculus
