import ProcessCalculus.Proofs.Sharing.Canonical

/-!
# Interning

A term former that is interned gets an identifier that stands for what it says, up to the order of operands. The
program only grows, and the keys that were entered earlier need not describe its present nodes.

* `Sharing.intern_of_known`, `Sharing.intern_of_unknown`: what interning does.
* `Sharing.ends_intern`: interning succeeds and keeps the notes sound.
* `Sharing.InternStep`: one term former is interned, which to the program is at most a step of building.
-/

namespace ProcessCalculus

open Relation Term

namespace Sharing

/-- The notes in which a node that was added is the canonical one under its key. -/
def register (id : ProcessId) (node : Node ProcessId) (s : Sharing) : Sharing :=
  { s with
    terms := s.terms.insert node.key id
    canonical := s.canonical.insert id id }

theorem canonical?_register (id : ProcessId) (node : Node ProcessId) (s : Sharing) (x : ProcessId) :
    (register id node s).canonical? x = if id = x then some id else s.canonical? x :=
  Table.getElem?_insert s.canonical id x id

theorem terms_register (id : ProcessId) (node : Node ProcessId) (s : Sharing) (key : Node ProcessId) :
    (register id node s).terms[key]? = if node.key = key then some id else s.terms[key]? :=
  Table.getElem?_insert s.terms node.key key id

variable {r : Reading} {p : Program} {s : Sharing} {node : Node ProcessId} {id : ProcessId}
  {k k' : Program × Sharing} {le : Term → Term → Prop} {defs : String → Term → Prop}

theorem intern_of_known (h : s.terms[node.key]? = some id) : intern node (p, s) = .ok id (p, s) := by
  simp only [intern, bind, EStateM.bind, Pass.notes, h]
  rfl

theorem intern_of_unknown (h : s.terms[node.key]? = none) :
    intern node (p, s) = .ok p.size ((p.add node).2, register p.size node s) := by
  simp only [intern, bind, EStateM.bind, Pass.notes, h]
  rfl

/-! ### What interned terms stand for -/

/-- A new node is entered under its key. -/
theorem Sound.register (h : Sound r s) (hc : ∀ c ∈ node.children, c < r.program.size) :
    Sound (r.add node) (s.register r.program.size node) := by
  have hk := Reading.Keeps.add r node
  have hnew : r.program.size < (r.add node).program.size := by
    rw [Reading.program_add, Program.size_add]
    exact Nat.lt_succ_self _
  have hold := h.keeps hk
  constructor
  · intro key id hkey
    rw [terms_register] at hkey
    split at hkey
    · rename_i heq
      cases hkey
      subst heq
      refine ⟨hnew, fun c hm => ?_, ?_⟩
      · exact Nat.lt_of_lt_of_le (hc c (Node.mem_children_key.1 hm)) hk.size_le
      · rw [Reading.term_add_size, ← Reading.node_term_add hc]
        exact node.key_term _
    · exact hold.terms_sound hkey
  · intro id c hcan
    rw [canonical?_register] at hcan
    split at hcan
    · rename_i heq
      cases hcan
      exact ⟨heq ▸ hnew, hnew, heq ▸ .refl _⟩
    · exact hold.canonical_sound hcan

theorem ends_intern (hle : Precongruence le) (hr : r.Models le defs) (hs : Sound r s) (hn : node.name? = none)
    (hc : ∀ c ∈ node.children, c < r.program.size) :
    Ends (Sharing.intern node) (r.program, s)
      (fun id t => ∃ r' s', t = (r'.program, s') ∧ r'.Models le defs ∧ Sound r' s' ∧ r.Extends r' ∧
        id < r'.program.size ∧ Reordered (node.term r'.term) (r'.term id))
      fun _ _ => False := by
  unfold Sharing.intern
  rw [ends_bind, ends_notes]
  split
  · rename_i id hid
    obtain ⟨hlt, -, hmeans⟩ := hs.terms_sound hid
    exact ⟨r, s, rfl, hr, hs, .refl r, hlt, (node.key_term r.term).symm.trans hmeans⟩
  · rw [ends_bind, ends_add, ends_bind, ends_modifyNotes]
    refine ⟨r.add node, _, rfl, hr.add hle.refl hn hc, hs.register hc, .add r hn, ?_, ?_⟩
    · rw [Reading.program_add, Program.size_add]
      exact Nat.lt_succ_self _
    · rw [Reading.node_term_add hc, Reading.term_add_size]
      exact .refl _

/-! ### Internings -/

/-- A term former over issued processes is interned. -/
inductive InternStep : Program × Sharing → Program × Sharing → Prop
  | intern {k : Program × Sharing} {node : Node ProcessId} (hn : node.name? = none)
      (hc : ∀ c ∈ node.children, c < k.1.size) : InternStep k (after (Sharing.intern node) k)

/-- Interning changes nothing, or it adds a node under a new key. -/
theorem InternStep.cases (h : InternStep k k') :
    k' = k ∨ ∃ node : Node ProcessId, node.name? = none ∧ (∀ c ∈ node.children, c < k.1.size) ∧
      k.2.terms[node.key]? = none ∧ k' = ((k.1.add node).2, register k.1.size node k.2) := by
  obtain ⟨p, s⟩ := k
  cases h with
  | @intern node hn hc =>
    cases hkey : s.terms[node.key]? with
    | some id =>
      left
      rw [after, intern_of_known hkey]
    | none =>
      right
      refine ⟨node, hn, hc, hkey, ?_⟩
      rw [after, intern_of_unknown hkey]

/-- To the program, interning is at most a step of building. -/
theorem built_of_interns (h : ReflTransGen InternStep k k') : ReflTransGen BuildStep k.1 k'.1 := by
  induction h with
  | refl => exact .refl
  | tail _ hstep ih =>
    obtain rfl | ⟨node, hn, hc, -, rfl⟩ := hstep.cases
    · exact ih
    · exact ih.tail (.add hn hc)

/-- What is added to the table of terms is the new node. -/
theorem term_lt_of_interns (h : ReflTransGen InternStep k k')
    (hk : ∀ (key : Node ProcessId) (x : ProcessId), k.2.terms[key]? = some x → x < k.1.size) (key : Node ProcessId)
    (x : ProcessId) (hx : k'.2.terms[key]? = some x) : x < k'.1.size := by
  induction h with
  | refl => exact hk key x hx
  | tail _ hstep ih =>
    obtain rfl | ⟨node, -, -, -, rfl⟩ := hstep.cases
    · exact ih hx
    · rw [Program.size_add]
      rw [terms_register] at hx
      split at hx
      · cases hx
        exact Nat.lt_succ_self _
      · exact Nat.lt_succ_of_lt (ih hx)

end Sharing

end ProcessCalculus
