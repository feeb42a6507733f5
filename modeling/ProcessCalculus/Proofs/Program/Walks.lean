import ProcessCalculus.Proofs.Program.Digest
import ProcessCalculus.Proofs.Sharing.Moves
import ProcessCalculus.Proofs.Simplification.Forms
import ProcessCalculus.Proofs.Transition.Expansion

/-!
# Walks over a program

A program that has a reading has no structural cycles, since subterms stand for terms of less height. All that walks
along subterms therefore comes to an end, whatever sharing, simplification and interning have made of the nodes.

* `Program.Child`, `Reading.Valid.not_transGen_child`: subterms, and that no process is below itself.
* `Program.Denotes.of_below`: what is denoted is decided by the nodes below.
* `Program.Walkable`: the walks over a program, and how they end.
* `Reading.Models.walkable`: how they end in a program whose names are all defined.
-/

namespace ProcessCalculus

open Relation Term

namespace Node

variable {sub sub' : Nat → ProcessId → String}

theorem textWith_congr (node : Node ProcessId) (h : ∀ c ∈ node.children, ∀ strength, sub strength c = sub' strength c) :
    node.textWith sub = node.textWith sub' := by
  cases node <;> simp_all [textWith, children]

end Node

namespace Program

/-- The second process is a subterm of the first one. The definition of a name is none. -/
def Child (p : Program) (id child : ProcessId) : Prop :=
  ∃ node, p.node? id = some node ∧ child ∈ node.children

/-- From every process of the program, each of the walks along subterms comes to its end: it never runs out of levels.
Expansion goes through definitions as well, and stops where it comes back to a process under expansion. -/
structure Walkable (p : Program) (id : ProcessId) : Prop where
  share : ∃ canonical t, Sharing.share id (p, ∅) = .ok canonical t
  simplify : ∃ form t, Simplification.simplify id (p, ∅) = .ok form t
  digest : ∃ digest known, Digest.ofTerm p id ∅ = .ok digest known
  components : ∃ cs, p.components id = .ok cs ∧ ∀ c ∈ cs, c < p.size
  successors : (∃ ts t, Expansion.successors id (p, ∅) = .ok ts t) ∨
    ∃ name t, Expansion.successors id (p, ∅) = .error (.unguardedUnfolding name) t
  text {depth : Nat} (hd : p.depthBound ≤ depth) (strength : Nat) :
    p.textAt depth strength id = p.textAt p.depthBound strength id

/-- What an identifier denotes is decided by the nodes below it. -/
theorem Denotes.of_below {p q : Program} {id : ProcessId} {t : Term} (h : p.Denotes id t)
    (hq : ∀ x node, ReflTransGen p.Child id x → p.node? x = some node → q.node? x = some node) : q.Denotes id t := by
  have hsub {id c : ProcessId} {node : Node ProcessId} (hnode : p.node? id = some node) (hc : c ∈ node.children)
      (hq : ∀ x node, ReflTransGen p.Child id x → p.node? x = some node → q.node? x = some node) (x : ProcessId)
      (other : Node ProcessId) (hx : ReflTransGen p.Child c x) (hother : p.node? x = some other) :
      q.node? x = some other :=
    hq x other (.head ⟨node, hnode, hc⟩ hx) hother
  induction h with
  | null h => exact .null (hq _ _ .refl h)
  | named h => exact .named (hq _ _ .refl h)
  | sum h _ _ ihl ihr =>
    exact .sum (hq _ _ .refl h) (ihl (hsub h (by simp [Node.children]) hq)) (ihr (hsub h (by simp [Node.children]) hq))
  | parallel h _ _ ihl ihr =>
    exact .parallel (hq _ _ .refl h) (ihl (hsub h (by simp [Node.children]) hq))
      (ihr (hsub h (by simp [Node.children]) hq))
  | act h _ ih => exact .act (hq _ _ .refl h) (ih (hsub h (by simp [Node.children]) hq))
  | restrict h _ ih => exact .restrict (hq _ _ .refl h) (ih (hsub h (by simp [Node.children]) hq))
  | rename h _ ih => exact .rename (hq _ _ .refl h) (ih (hsub h (by simp [Node.children]) hq))
  | delay h _ ih => exact .delay (hq _ _ .refl h) (ih (hsub h (by simp [Node.children]) hq))

end Program

namespace Reading

variable {r : Reading} {le : Term → Term → Prop} {defs : String → Term → Prop} {id child : ProcessId}

namespace Valid

theorem height_lt_of_child (h : r.Valid le) (hle : Precongruence le) (hc : r.program.Child id child) :
    (r.term child).height < (r.term id).height := by
  obtain ⟨node, hnode, hmem⟩ := hc
  have hlt := Node.height_lt_of_mem_children (m := r.term) hmem
  have hge := hle.height_le (h.node_le hnode)
  omega

/-- Subterms lower the height, so no process is a subterm of itself at any depth. -/
theorem not_transGen_child (h : r.Valid le) (hle : Precongruence le) (id : ProcessId) :
    ¬ TransGen r.program.Child id id := by
  intro hcycle
  have hlower (x y : ProcessId) (hxy : TransGen r.program.Child x y) : (r.term y).height < (r.term x).height := by
    induction hxy with
    | single hc => exact h.height_lt_of_child hle hc
    | tail _ hc ih => exact Nat.lt_trans (h.height_lt_of_child hle hc) ih
  exact Nat.lt_irrefl _ (hlower id id hcycle)

/-- The text of a term does not depend on how many levels may be written, once these are enough. -/
theorem textAt_eq (h : r.Valid le) (hle : Precongruence le) {depth depth' : Nat} (hid : id < r.program.size)
    (hd : (r.term id).height < depth) (hd' : (r.term id).height < depth') (strength : Nat) :
    r.program.textAt depth strength id = r.program.textAt depth' strength id := by
  induction depth generalizing depth' id strength with
  | zero => exact absurd hd (Nat.not_lt_zero _)
  | succ depth ih =>
    cases depth' with
    | zero => exact absurd hd' (Nat.not_lt_zero _)
    | succ depth' =>
      obtain ⟨node, hnode⟩ := Program.exists_node_of_lt hid
      have hsub : node.textWith (r.program.textAt depth) = node.textWith (r.program.textAt depth') := by
        apply Node.textWith_congr
        intro c hc strength
        have hlt := h.height_lt_of_child hle ⟨node, hnode, hc⟩
        exact ih (h.wellFormed.child_lt hnode c hc) (by omega) (by omega) strength
      rw [Program.textAt, Program.textAt, hnode]
      simp only [hsub]

end Valid

namespace Models

/-- Sharing with fresh notes reads the program as what it denotes now. -/
private theorem exists_share (h : r.Valid Simplifies) (hid : id < r.program.size) :
    ∃ canonical t, Sharing.share id (r.program, ∅) = .ok canonical t := by
  obtain ⟨m, hm, hexact⟩ := h.exists_exact_of_le Simplifies.precongruence
  have hmodels : Models Reordered r.program.Defines ⟨r.program, m⟩ :=
    .of_denotes (hexact Reordered Reordered.refl) fun id hid => ⟨m id, hm id hid, .refl _⟩
  have hk : Sharing.Shared m r.program.Defines (r.program, ∅) := ⟨hmodels, .empty _, .empty _⟩
  obtain ⟨canonical, t, hok, -⟩ := (Sharing.ends_share hk hid).exists_ok
  exact ⟨canonical, t, hok⟩

private theorem exists_components (h : r.Models Simplifies defs) (htotal : r.Total defs) (hid : id < r.program.size) :
    ∃ cs, r.program.components id = .ok cs ∧ ∀ c ∈ cs, c < r.program.size := by
  obtain ⟨node, hnode⟩ := Program.exists_node_of_lt hid
  have hdef (name : String) : node ≠ .named name none := by
    rintro rfl
    exact htotal.ne_undefined h hnode
  obtain ⟨cs, hcs, hc, -⟩ := Program.exists_components h Simplifies.precongruence hnode hdef
  exact ⟨cs, hcs, fun c hm => hc.lt hm⟩

private theorem successors_ends (h : r.Models Simplifies defs) (htotal : r.Total defs) (hid : id < r.program.size) :
    (∃ ts t, Expansion.successors id (r.program, ∅) = .ok ts t) ∨
      ∃ name t, Expansion.successors id (r.program, ∅) = .error (.unguardedUnfolding name) t := by
  have hs : Expansion.Sound defs Simplifies r ∅ := .of_sharing h (.empty r)
  have hends : Ends (Expansion.successors id) _ _ _ := Expansion.ends_successors Simplifies.precongruence hs
  cases hrun : Expansion.successors id (r.program, ∅) with
  | ok ts t => exact .inl ⟨ts, t, rfl⟩
  | error fault t =>
    obtain ⟨-, hblocks⟩ := hends.of_error hrun
    cases hblocks hid with
    | undefined _ hnode => exact absurd hnode (htotal.ne_undefined h)
    | cycle => exact .inr ⟨_, t, rfl⟩

/-- In a program whose names are all defined, all walks come to their end. -/
theorem walkable (h : r.Models Simplifies defs) (htotal : r.Total defs) (hid : id < r.program.size) :
    r.program.Walkable id where
  share := exists_share h.toValid hid
  simplify := by
    obtain ⟨form, t, hok, -⟩ := (Simplification.ends_simplify (.of_models h) hid).exists_ok
    exact ⟨form, t, hok⟩
  digest := by
    obtain ⟨digest, known, hok, -⟩ :=
      (HashFunction.ends_ofTerm Sha256.digest h.toValid Simplifies.precongruence hid).exists_ok
    exact ⟨digest, known, hok⟩
  components := h.exists_components htotal hid
  successors := h.successors_ends htotal hid
  text {depth} hd strength := by
    have hbound : (r.term id).height < r.program.depthBound :=
      Nat.lt_succ_of_le (Nat.le_trans (h.height_le hid) (Nat.le_of_lt hid))
    exact h.textAt_eq Simplifies.precongruence hid (Nat.lt_of_lt_of_le hbound hd) hbound strength

end Models

end Reading

end ProcessCalculus
