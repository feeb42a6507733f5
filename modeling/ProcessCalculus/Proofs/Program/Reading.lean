import ProcessCalculus.Proofs.Calculus.Precongruence
import ProcessCalculus.Proofs.Program.Building

/-!
# Readings of a program

A reading says for each identifier which term it stands for. Passes rewrite nodes, and the reading stays: what a
node says may replace the term that its identifier stands for. New identifiers are added to the reading.

* `Reading.Valid`: the reading of a program, up to a preorder on terms.
* `Reading.Valid.denotes`: each identifier denotes a term that may replace the one it stands for.
* `Reading.Models`: the definitions of the program are, up to the preorder, given ones.
* `Reading.Keeps`: a later reading, in which everything stands for what it stood for before.
* `Reading.Preserves`, `Reading.Rewrites`, `Reading.Extends`: later readings with the same names, with the same
  definitions of names, and with the same nodes as before.
* `Reading.Models.rewrite`: the step that passes have in common.
-/

namespace ProcessCalculus

open Term

/-- A program with the term that each of its identifiers stands for. -/
structure Reading where
  program : Program
  term : ProcessId → Term

namespace Reading

/-- The reading with a new node. The new identifier stands for what the node says. -/
def add (r : Reading) (node : Node ProcessId) : Reading where
  program := (r.program.add node).2
  term id := if id = r.program.size then node.term r.term else r.term id

/-- The reading with another node under an identifier, which stands for the same term as before. -/
def write (r : Reading) (id : ProcessId) (node : Node ProcessId) : Reading where
  program := r.program.write id node
  term := r.term

variable {r : Reading} {id : ProcessId} {node old : Node ProcessId}

@[simp] theorem program_add : (r.add node).program = (r.program.add node).2 := rfl

@[simp] theorem program_write : (r.write id node).program = r.program.write id node := rfl

theorem term_add_of_lt (h : id < r.program.size) : (r.add node).term id = r.term id :=
  if_neg (Nat.ne_of_lt h)

theorem term_add_size : (r.add node).term r.program.size = node.term r.term :=
  if_pos rfl

/-- A node over identifiers of the program says the same after an addition. -/
theorem node_term_add {other : Node ProcessId} (h : ∀ c ∈ other.children, c < r.program.size) :
    other.term (r.add node).term = other.term r.term :=
  Node.term_congr other fun c hc => term_add_of_lt (h c hc)

/-- All that the first reading has is in the second one, and stands for the same terms. -/
structure Keeps (r r' : Reading) : Prop where
  size_le : r.program.size ≤ r'.program.size
  term_eq {id : ProcessId} : id < r.program.size → r'.term id = r.term id

namespace Keeps

theorem refl (r : Reading) : Keeps r r :=
  ⟨Nat.le_refl _, fun _ => rfl⟩

theorem trans {r' r'' : Reading} (h : Keeps r r') (h' : Keeps r' r'') : Keeps r r'' where
  size_le := Nat.le_trans h.size_le h'.size_le
  term_eq hid := (h'.term_eq (Nat.lt_of_lt_of_le hid h.size_le)).trans (h.term_eq hid)

theorem add (r : Reading) (node : Node ProcessId) : Keeps r (r.add node) where
  size_le := by
    rw [program_add, Program.size_add]
    exact Nat.le_succ _
  term_eq hid := term_add_of_lt hid

theorem write (r : Reading) (id : ProcessId) (node : Node ProcessId) : Keeps r (r.write id node) where
  size_le := Nat.le_of_eq (Program.size_write r.program id node).symm
  term_eq _ := rfl

theorem node_term {r' : Reading} (h : Keeps r r') (hc : ∀ c ∈ node.children, c < r.program.size) :
    node.term r'.term = node.term r.term :=
  Node.term_congr node fun c hm => h.term_eq (hc c hm)

end Keeps

/-- A later reading with the same names. -/
structure Preserves (r r' : Reading) : Prop extends Keeps r r' where
  lookup?_eq (name : String) : r'.program.lookup? name = r.program.lookup? name

namespace Preserves

theorem refl (r : Reading) : Preserves r r :=
  ⟨.refl r, fun _ => rfl⟩

theorem trans {r' r'' : Reading} (h : Preserves r r') (h' : Preserves r' r'') : Preserves r r'' :=
  ⟨h.toKeeps.trans h'.toKeeps, fun name => (h'.lookup?_eq name).trans (h.lookup?_eq name)⟩

theorem add (r : Reading) (node : Node ProcessId) : Preserves r (r.add node) :=
  ⟨.add r node, fun _ => rfl⟩

theorem write (r : Reading) (id : ProcessId) (node : Node ProcessId) : Preserves r (r.write id node) :=
  ⟨.write r id node, fun _ => rfl⟩

end Preserves

/-- A later reading in which, besides, the same names have the same definitions. -/
structure Rewrites (r r' : Reading) : Prop extends Preserves r r' where
  named_iff {id : ProcessId} {name : String} {body : Option ProcessId} :
    r'.program.node? id = some (.named name body) ↔ r.program.node? id = some (.named name body)

namespace Rewrites

theorem refl (r : Reading) : Rewrites r r :=
  ⟨.refl r, .rfl⟩

theorem trans {r' r'' : Reading} (h : Rewrites r r') (h' : Rewrites r' r'') : Rewrites r r'' :=
  ⟨h.toPreserves.trans h'.toPreserves, h'.named_iff.trans h.named_iff⟩

theorem add (r : Reading) (hn : node.name? = none) : Rewrites r (r.add node) where
  toPreserves := .add r node
  named_iff {id name body} := by
    rw [program_add, Program.node?_add]
    split
    · rename_i hid
      rw [hid, Program.node?_eq_none_iff.2 (Nat.le_refl _), Option.some.injEq]
      simp [Node.name?_eq_none_iff.1 hn]
    · rfl

theorem write (r : Reading) (hid : r.program.node? id = some old)
    (hn : ∀ name body, node = .named name body ↔ old = .named name body) :
    Rewrites r (r.write id node) where
  toPreserves := .write r id node
  named_iff {other name body} := by
    rw [program_write, Program.node?_write_of_lt (Program.lt_size_of_node? hid)]
    split
    · rename_i hother
      rw [← hother, hid, Option.some.injEq, Option.some.injEq, hn]
    · rfl

end Rewrites

/-- A later reading in which, besides, all nodes are as before. -/
structure Extends (r r' : Reading) : Prop extends Rewrites r r' where
  node?_eq {id : ProcessId} : id < r.program.size → r'.program.node? id = r.program.node? id

namespace Extends

theorem refl (r : Reading) : Extends r r :=
  ⟨.refl r, fun _ => rfl⟩

theorem trans {r' r'' : Reading} (h : Extends r r') (h' : Extends r' r'') : Extends r r'' where
  toRewrites := h.toRewrites.trans h'.toRewrites
  node?_eq hid := (h'.node?_eq (Nat.lt_of_lt_of_le hid h.size_le)).trans (h.node?_eq hid)

theorem add (r : Reading) (hn : node.name? = none) : Extends r (r.add node) where
  toRewrites := .add r hn
  node?_eq hid := by
    rw [program_add, Program.node?_add, if_neg (Nat.ne_of_lt hid)]

end Extends

/-- What each node says may replace the term of its identifier, where the inactive process replaces itself only. No
term is deeper than there are identifiers issued before its own. -/
structure Valid (le : Term → Term → Prop) (r : Reading) : Prop where
  wellFormed : r.program.WellFormed
  node_le {id : ProcessId} {node : Node ProcessId} :
    r.program.node? id = some node → le (r.term id) (node.term r.term)
  eq_null {id : ProcessId} : r.program.node? id = some .null → r.term id = .null
  height_le {id : ProcessId} : id < r.program.size → (r.term id).height ≤ id

namespace Valid

variable {le : Term → Term → Prop}

theorem mono {le' : Term → Term → Prop} (h : Valid le r) (hle : ∀ {s t}, le s t → le' s t) : Valid le' r where
  wellFormed := h.wellFormed
  node_le hid := hle (h.node_le hid)
  eq_null := h.eq_null
  height_le := h.height_le

theorem name_le (h : Valid le r) {name : String} {body : Option ProcessId}
    (hid : r.program.node? id = some (.named name body)) : le (r.term id) (.name name) :=
  h.node_le hid

theorem add (h : Valid le r) (hle : ∀ t, le t t) (hn : node.name? = none)
    (hc : ∀ c ∈ node.children, c < r.program.size) : Valid le (r.add node) where
  wellFormed := h.wellFormed.add hn hc
  node_le {id other} ho := by
    rw [program_add, Program.node?_add] at ho
    split at ho
    · rename_i hid
      cases ho
      rw [node_term_add hc, hid, term_add_size]
      exact hle _
    · rw [node_term_add (h.wellFormed.child_lt ho), term_add_of_lt (Program.lt_size_of_node? ho)]
      exact h.node_le ho
  eq_null {id} hid := by
    rw [program_add, Program.node?_add] at hid
    split at hid
    · rename_i hid'
      cases hid
      rw [hid', term_add_size]
      rfl
    · rw [term_add_of_lt (Program.lt_size_of_node? hid)]
      exact h.eq_null hid
  height_le {id} hid := by
    rw [program_add, Program.size_add] at hid
    rcases Nat.lt_succ_iff_lt_or_eq.1 hid with hid | rfl
    · rw [term_add_of_lt hid]
      exact h.height_le hid
    · rw [term_add_size]
      exact Node.height_le fun c hm => Nat.lt_of_le_of_lt (h.height_le (hc c hm)) (hc c hm)

theorem write (h : Valid le r) (hid : r.program.node? id = some old) (hn : node.name? = old.name?)
    (hc : ∀ c ∈ node.children, c < r.program.size)
    (hb : ∀ name body, node = .named name (some body) → body < r.program.size)
    (hnull : node = .null → r.term id = .null) (hle : le (r.term id) (node.term r.term)) :
    Valid le (r.write id node) where
  wellFormed := h.wellFormed.write hid hn hc hb
  node_le {other n} ho := by
    rw [program_write, Program.node?_write_of_lt (Program.lt_size_of_node? hid)] at ho
    split at ho
    · rename_i hother
      cases ho
      exact hother ▸ hle
    · exact h.node_le ho
  eq_null {other} ho := by
    rw [program_write, Program.node?_write_of_lt (Program.lt_size_of_node? hid)] at ho
    split at ho
    · rename_i hother
      exact hother ▸ hnull (Option.some.inj ho)
    · exact h.eq_null ho
  height_le hother := h.height_le (by rwa [program_write, Program.size_write] at hother)

/-- A name that is mentioned stands for itself. -/
theorem exists_mention (h : Valid le r) (hle : ∀ t, le t t) (name : String) :
    ∃ r' : Reading, r'.program = (r.program.mention name).2 ∧ r'.Valid le ∧ r.Keeps r' := by
  cases hl : r.program.lookup? name with
  | some id => exact ⟨r, by rw [Program.mention_of_known hl], h, .refl r⟩
  | none =>
    obtain ⟨-, hsize, hnode, -⟩ := Program.mention_of_new hl
    -- the nodes are those of an addition, only the table of names is another one
    refine ⟨⟨(r.program.mention name).2, (r.add (.named name none)).term⟩, rfl,
      ⟨h.wellFormed.mention name, ?_, ?_, ?_⟩, ⟨?_, term_add_of_lt⟩⟩
    · intro id node hid
      rw [show (Reading.mk _ _).program = (r.program.mention name).2 from rfl, hnode] at hid
      split at hid
      · rename_i hid'
        cases hid
        show le ((r.add (.named name none)).term id) (.name name)
        rw [hid', term_add_size]
        exact hle _
      · show le ((r.add _).term id) (node.term (r.add _).term)
        rw [node_term_add (h.wellFormed.child_lt hid), term_add_of_lt (Program.lt_size_of_node? hid)]
        exact h.node_le hid
    · intro id hid
      rw [show (Reading.mk _ _).program = (r.program.mention name).2 from rfl, hnode] at hid
      split at hid
      · cases hid
      · exact (term_add_of_lt (Program.lt_size_of_node? hid)).trans (h.eq_null hid)
    · intro id hid
      rw [show (Reading.mk _ _).program = (r.program.mention name).2 from rfl, hsize] at hid
      show ((r.add _).term id).height ≤ id
      rcases Nat.lt_succ_iff_lt_or_eq.1 hid with hid | rfl
      · rw [term_add_of_lt hid]
        exact h.height_le hid
      · rw [term_add_size]
        exact Nat.zero_le _
    · exact Program.size_le_size_mention r.program name

/-- By induction on the term that an identifier stands for: a node only says less. -/
theorem denotes (h : Valid le r) (hle : Precongruence le) (hid : id < r.program.size) :
    ∃ t, r.program.Denotes id t ∧ le (r.term id) t := by
  induction hk : (r.term id).height using Nat.strongRecOn generalizing id with
  | ind k ih =>
    obtain ⟨node, hnode⟩ := Program.exists_node_of_lt hid
    have hsub (c : ProcessId) (hc : c ∈ node.children) :
        ∃ t, r.program.Denotes c t ∧ le (r.term c) t := by
      have hlt := Node.height_lt_of_mem_children (m := r.term) hc
      have hge := hle.height_le (h.node_le hnode)
      exact ih _ (by omega) (h.wellFormed.child_lt hnode c hc) rfl
    -- one term is chosen for each subterm, and the node puts them together
    classical
    let m (c : ProcessId) : Term := if hc : c ∈ node.children then (hsub c hc).choose else .null
    have hm (c : ProcessId) (hc : c ∈ node.children) :
        r.program.Denotes c (m c) ∧ le (r.term c) (m c) := by
      rw [show m c = (hsub c hc).choose from dif_pos hc]
      exact (hsub c hc).choose_spec
    refine ⟨node.term m, .of_node hnode fun c hc => (hm c hc).1, ?_⟩
    refine hle.trans (h.node_le hnode) (hle.node ?_)
    exact .refl node fun c hc => (hm c hc).2

/-- A program in which each identifier denotes a term can be read as exactly these terms. -/
theorem exists_exact_of_le (h : Valid le r) (hle : Precongruence le) :
    ∃ m, (∀ id, id < r.program.size → r.program.Denotes id (m id)) ∧
      ∀ le' : Term → Term → Prop, (∀ t, le' t t) → Valid le' ⟨r.program, m⟩ := by
  classical
  let m (id : ProcessId) : Term :=
    if hid : id < r.program.size then (h.denotes hle hid).choose else .null
  have hm (id : ProcessId) (hid : id < r.program.size) :
      r.program.Denotes id (m id) ∧ le (r.term id) (m id) := by
    rw [show m id = _ from dif_pos hid]
    exact (h.denotes hle hid).choose_spec
  refine ⟨m, fun id hid => (hm id hid).1, fun le' hle' => ⟨h.wellFormed, ?_, ?_, ?_⟩⟩
  · intro id node hnode
    have hmeans := Program.Denotes.of_node hnode fun c hc => (hm c (h.wellFormed.child_lt hnode c hc)).1
    rw [show (Reading.mk r.program m).term = m from rfl,
      (hm id (Program.lt_size_of_node? hnode)).1.unique hmeans]
    exact hle' _
  · intro id hid
    exact (hm id (Program.lt_size_of_node? hid)).1.unique (.null hid)
  · intro id hid
    exact Nat.le_trans (hle.height_le (hm id hid).2) (h.height_le hid)

theorem exists_exact (h : Valid Reordered r) :
    ∃ m, (∀ id, id < r.program.size → r.program.Denotes id (m id)) ∧
      ∀ le : Term → Term → Prop, (∀ t, le t t) → Valid le ⟨r.program, m⟩ :=
  h.exists_exact_of_le Reordered.precongruence

end Valid

/-- A valid reading in which the definitions of the program are those given by `defs`, up to the preorder. -/
structure Models (le : Term → Term → Prop) (defs : String → Term → Prop) (r : Reading) : Prop
    extends Valid le r where
  exists_def {id : ProcessId} {name : String} {body : ProcessId} :
    r.program.node? id = some (.named name (some body)) → ∃ t, defs name t ∧ le t (r.term body)
  exists_body {id : ProcessId} {name : String} {body : Option ProcessId} {t : Term} :
    r.program.node? id = some (.named name body) → defs name t →
      ∃ b, body = some b ∧ le t (r.term b)
  exists_name {name : String} {t : Term} : defs name t → ∃ id, r.program.lookup? name = some id

namespace Models

variable {le : Term → Term → Prop} {defs : String → Term → Prop}

/-- The definitions of a program are its own, if what its identifiers denote is replaced by what they stand
for. -/
theorem of_denotes (h : Valid le r)
    (hd : ∀ id, id < r.program.size → ∃ t, r.program.Denotes id t ∧ le t (r.term id)) :
    Models le r.program.Defines r where
  toValid := h
  exists_def {id name body} hid := by
    obtain ⟨t, ht, hle⟩ := hd body (h.wellFormed.body_lt hid)
    exact ⟨t, ⟨id, body, h.wellFormed.lookup?_of_named hid, hid, ht⟩, hle⟩
  exists_body {id name body t} hid := by
    rintro ⟨id', b, hl, hid', ht⟩
    obtain rfl : id' = id := Option.some.inj (hl.symm.trans (h.wellFormed.lookup?_of_named hid))
    obtain rfl : body = some b := by simpa [hid] using hid'
    obtain ⟨u, hu, hle⟩ := hd b (h.wellFormed.body_lt hid)
    exact ⟨b, rfl, hu.unique ht ▸ hle⟩
  exists_name := fun ⟨id, _, hl, _⟩ => ⟨id, hl⟩

theorem mono {le' : Term → Term → Prop} (h : Models le defs r) (hle : ∀ {s t}, le s t → le' s t) :
    Models le' defs r where
  toValid := h.toValid.mono hle
  exists_def hid := by
    obtain ⟨t, ht, hbody⟩ := h.exists_def hid
    exact ⟨t, ht, hle hbody⟩
  exists_body hid hdef := by
    obtain ⟨b, hb, hbody⟩ := h.exists_body hid hdef
    exact ⟨b, hb, hle hbody⟩
  exists_name := h.exists_name

theorem add (h : Models le defs r) (hle : ∀ t, le t t) (hn : node.name? = none)
    (hc : ∀ c ∈ node.children, c < r.program.size) : Models le defs (r.add node) where
  toValid := h.toValid.add hle hn hc
  exists_def {id name body} hid := by
    rw [program_add, Program.node?_add] at hid
    split at hid
    · cases hid
      cases hn
    · rw [term_add_of_lt (h.wellFormed.body_lt hid)]
      exact h.exists_def hid
  exists_body {id name body t} hid hdef := by
    rw [program_add, Program.node?_add] at hid
    split at hid
    · cases hid
      cases hn
    · obtain ⟨b, rfl, hb⟩ := h.exists_body hid hdef
      refine ⟨b, rfl, ?_⟩
      rwa [term_add_of_lt (h.wellFormed.body_lt hid)]
  exists_name := h.exists_name

/-- A node is replaced by another one that stands for the same name and its definition, if for any. -/
theorem write (h : Models le defs r) (hid : r.program.node? id = some old)
    (hn : ∀ name body, node = .named name body ↔ old = .named name body)
    (hc : ∀ c ∈ node.children, c < r.program.size) (hnull : node = .null → r.term id = .null)
    (hle : le (r.term id) (node.term r.term)) : Models le defs (r.write id node) where
  toValid := by
    refine h.toValid.write hid ?_ hc ?_ hnull hle
    · refine Option.ext fun name => ?_
      simp only [Node.name?_eq_some_iff, hn]
    · intro name body hnode
      exact h.wellFormed.body_lt (hid.trans (congrArg some ((hn name _).1 hnode)))
  exists_def {other name body} ho := by
    rw [program_write, Program.node?_write_of_lt (Program.lt_size_of_node? hid)] at ho
    split at ho
    · rename_i hother
      rw [Option.some.injEq, hn] at ho
      exact h.exists_def (hid.trans (congrArg some ho))
    · exact h.exists_def ho
  exists_body {other name body t} ho hdef := by
    rw [program_write, Program.node?_write_of_lt (Program.lt_size_of_node? hid)] at ho
    split at ho
    · rename_i hother
      rw [Option.some.injEq, hn] at ho
      exact h.exists_body (hid.trans (congrArg some ho)) hdef
    · exact h.exists_body ho hdef
  exists_name := h.exists_name

/-- A node of an earlier reading is put back with other subterms, which may stand for the old ones. -/
theorem rewrite {r' : Reading} (h : Models le defs r) (h' : Models le defs r') (hr : Rewrites r r')
    (hle : Precongruence le) (hid : r.program.node? id = some old) {R : ProcessId → ProcessId → Prop}
    (hrel : old.Related R node)
    (hR : ∀ c d, R c d → d < r'.program.size ∧ le (r'.term c) (r'.term d)) :
    Models le defs (r'.write id node) ∧ Rewrites r (r'.write id node) := by
  have hlt := Program.lt_size_of_node? hid
  obtain ⟨current, hcurrent⟩ := Program.exists_node_of_lt (Nat.lt_of_lt_of_le hlt hr.size_le)
  have hn (name : String) (body : Option ProcessId) :
      node = .named name body ↔ current = .named name body := by
    rw [hrel.named_iff, ← Option.some.injEq, ← Option.some.injEq current, ← hcurrent, ← hid, hr.named_iff]
  -- the old node said enough, and the new subterms may replace the old ones
  have hmeans : le (r'.term id) (node.term r'.term) := by
    refine hle.trans ?_ (hle.node (hrel.mono fun c _ d hcd => (hR c d hcd).2))
    rw [hr.term_eq hlt, hr.node_term (h.wellFormed.child_lt hid)]
    exact h.node_le hid
  have hc (d : ProcessId) (hd : d ∈ node.children) : d < r'.program.size := by
    obtain ⟨c, -, hcd⟩ := hrel.exists_of_mem_children hd
    exact (hR c d hcd).1
  have hnull (hnode : node = .null) : r'.term id = .null := by
    subst hnode
    cases hrel
    rw [hr.term_eq hlt]
    exact h.eq_null hid
  exact ⟨h'.write hcurrent hn hc hnull hmeans, hr.trans (.write r' hcurrent hn)⟩

/-- A definition is replaced by one that may stand for it. -/
theorem redirect (h : Models le defs r) (hle : Precongruence le) {name : String} {body body' : ProcessId}
    (hid : r.program.node? id = some (.named name (some body))) (hb : body' < r.program.size)
    (hbody : le (r.term body) (r.term body')) :
    Models le defs (r.write id (.named name (some body'))) where
  toValid := by
    refine h.toValid.write hid rfl (by simp [Node.children]) ?_ nofun (h.name_le hid)
    intro _ _ hnode
    cases hnode
    exact hb
  exists_def {other name body} ho := by
    rw [program_write, Program.node?_write_of_lt (Program.lt_size_of_node? hid)] at ho
    split at ho
    · cases ho
      obtain ⟨t, ht, htb⟩ := h.exists_def hid
      exact ⟨t, ht, hle.trans htb hbody⟩
    · exact h.exists_def ho
  exists_body {other name body t} ho hdef := by
    rw [program_write, Program.node?_write_of_lt (Program.lt_size_of_node? hid)] at ho
    split at ho
    · cases ho
      obtain ⟨b, hbb, htb⟩ := h.exists_body hid hdef
      cases hbb
      exact ⟨body', rfl, hle.trans htb hbody⟩
    · exact h.exists_body ho hdef
  exists_name := h.exists_name

/-- The definitions of the program replace the given ones. -/
theorem exists_defines (h : Models le defs r) (hle : Precongruence le) {name : String} {t : Term}
    (hdef : defs name t) : ∃ t', r.program.Defines name t' ∧ le t t' := by
  obtain ⟨id, hid⟩ := h.exists_name hdef
  obtain ⟨body, hnode⟩ := h.wellFormed.exists_named_of_lookup? hid
  obtain ⟨b, rfl, hb⟩ := h.exists_body hnode hdef
  obtain ⟨t', ht', hle'⟩ := h.denotes hle (h.wellFormed.body_lt hnode)
  exact ⟨t', ⟨id, b, hid, hnode, ht'⟩, hle.trans hb hle'⟩

/-- The program has no other definitions. -/
theorem exists_of_defines (h : Models le defs r) (hle : Precongruence le) {name : String} {t' : Term}
    (hdef : r.program.Defines name t') : ∃ t, defs name t ∧ le t t' := by
  obtain ⟨id, b, -, hnode, ht'⟩ := hdef
  obtain ⟨t, ht, hb⟩ := h.exists_def hnode
  obtain ⟨u, hu, hle'⟩ := h.denotes hle (h.wellFormed.body_lt hnode)
  exact ⟨t, ht, hle.trans hb (hu.unique ht' ▸ hle')⟩

/-- What may stand for a term makes the same steps in the program. -/
theorem isBisimulation (h : Models le defs r) (hle : Precongruence le) :
    IsBisimulation (Step defs) (Step r.program.Defines) le :=
  hle.isBisimulation (fun _ _ hdef => h.exists_defines hle hdef) fun _ _ hdef => h.exists_of_defines hle hdef

end Models

end Reading

/-- A step of building keeps a valid reading. -/
theorem BuildStep.exists_reading {r : Reading} {p q : Program} {le : Term → Term → Prop} (h : BuildStep p q)
    (hr : r.program = p) (hv : r.Valid le) (hle : ∀ t, le t t) :
    ∃ r' : Reading, r'.program = q ∧ r'.Valid le ∧ r.Keeps r' := by
  subst hr
  cases h with
  | add hn hc => exact ⟨_, rfl, hv.add hle hn hc, .add r _⟩
  | mention name => exact hv.exists_mention hle name
  | define name body =>
    rcases r.program.after_define name body with h | h | ⟨hb, id, own, hid, h⟩ <;> rw [h]
    · exact ⟨r, rfl, hv, .refl r⟩
    · exact hv.exists_mention hle name
    · obtain ⟨r', hr', hv', hk⟩ := hv.exists_mention hle name
      rw [← hr'] at hid ⊢
      refine ⟨r'.write id (.named own (some body)), rfl, ?_, hk.trans (.write r' id _)⟩
      refine hv'.write hid rfl (by simp [Node.children]) ?_ nofun (hv'.name_le hid)
      intro _ _ hnode
      cases hnode
      exact Nat.lt_of_lt_of_le hb hk.size_le

theorem Built.exists_reading {p : Program} {le : Term → Term → Prop} (h : Built p) (hle : ∀ t, le t t) :
    ∃ r : Reading, r.program = p ∧ r.Valid le := by
  induction h with
  | refl =>
    refine ⟨⟨∅, fun _ => .null⟩, rfl, Program.WellFormed.empty, ?_, fun _ => rfl, ?_⟩
    · intro id node h
      simp at h
    · intro id h
      exact absurd h (Nat.not_lt_zero id)
  | tail _ hstep ih =>
    obtain ⟨r, hr, hv⟩ := ih
    obtain ⟨r', hr', hv', -⟩ := hstep.exists_reading hr hv hle
    exact ⟨r', hr', hv'⟩

/-- A program that was built has its own definitions, read as what its identifiers denote. -/
theorem Built.exists_models {p : Program} (h : Built p) :
    ∃ m, (∀ id, id < p.size → p.Denotes id (m id)) ∧ Reading.Models Reordered p.Defines ⟨p, m⟩ := by
  obtain ⟨⟨q, _⟩, rfl, hv⟩ := h.exists_reading Reordered.refl
  obtain ⟨m, hm, hexact⟩ := hv.exists_exact
  exact ⟨m, hm, .of_denotes (hexact Reordered Reordered.refl) fun id hid => ⟨m id, hm id hid, .refl _⟩⟩

end ProcessCalculus
