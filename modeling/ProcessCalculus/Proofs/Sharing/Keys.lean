import ProcessCalculus.Proofs.Sharing.History
import ProcessCalculus.Proofs.Transition.Additions

/-!
# Keys of canonical nodes

Sharing rewrites nodes, and interning takes subterms as they are given, be they canonical or not. Still the table of
terms never speaks of a node that has become another one: it lists canonical nodes only, and these are not written any
more. So what is found in it under the key of a node is this node, up to the order of operands.

* `Node.key_eq_iff`: nodes under one key.
* `Sharing.Change`: what building, sharing and interning are made of.
* `Sharing.Keyed`: the table lists each process under its key.
* `Sharing.Intact`, `Sharing.Intact.change`: that the table is right is preserved by each change.
* `Sharing.Intact.exists_intern`: what is interned, and that it is found again after any further changes.
-/

namespace ProcessCalculus

open Relation Term

namespace Node

/-- The node with the operands of a sum or of a parallel composition in the other order. -/
def swapped : Node ProcessId → Node ProcessId
  | sum l r => sum r l
  | parallel l r => parallel r l
  | node => node

variable {node node' : Node ProcessId}

@[simp] theorem key_swapped (node : Node ProcessId) : node.swapped.key = node.key := by
  cases node <;> first | rfl | exact ordered_comm _ _

private theorem ordered_eq_or (f : ProcessId → ProcessId → Node ProcessId) (l r : ProcessId) :
    ordered f l r = f l r ∨ ordered f l r = f r l := by
  unfold ordered
  split
  · exact .inl rfl
  · exact .inr rfl

/-- The key of a term former is itself, up to the order of operands. -/
private theorem key_eq_or (hn : node.name? = none) : node.key = node ∨ node.key = node.swapped := by
  cases node with
  | named => cases hn
  | sum l r => exact ordered_eq_or sum l r
  | parallel l r => exact ordered_eq_or parallel l r
  | _ => exact .inl rfl

@[simp] theorem swapped_swapped (node : Node ProcessId) : node.swapped.swapped = node := by
  cases node <;> rfl

theorem name?_key (node : Node ProcessId) : node.key.name? = node.name? := by
  cases node with
  | sum l r => rcases ordered_eq_or sum l r with h | h <;> simp only [key, h, name?]
  | parallel l r => rcases ordered_eq_or parallel l r with h | h <;> simp only [key, h, name?]
  | _ => rfl

/-- Term formers have one key exactly if they are equal up to the order of operands. -/
theorem key_eq_iff (hn : node.name? = none) : node'.key = node.key ↔ node' = node ∨ node' = node.swapped := by
  constructor
  · intro h
    have hn' : node'.name? = none := by rw [← node'.name?_key, h, node.name?_key, hn]
    rcases key_eq_or hn with hk | hk <;> rcases key_eq_or hn' with hk' | hk' <;> rw [hk, hk'] at h
    · exact .inl h
    · exact .inr (by rw [← h, swapped_swapped])
    · exact .inr h
    · exact .inl (by rw [← node'.swapped_swapped, h, swapped_swapped])
  · rintro (rfl | rfl)
    · rfl
    · exact node.key_swapped

end Node

namespace Sharing

/-- What building, sharing and interning are made of. -/
inductive Change : Program × Sharing → Program × Sharing → Prop
  | build {p q : Program} (s : Sharing) (h : BuildStep p q) : Change (p, s) (q, s)
  | move {k k' : Program × Sharing} (h : Move (fun _ => True) k k') : Change k k'
  | intern {k k' : Program × Sharing} (h : InternStep k k') : Change k k'

/-- Each process in the table of terms has exactly the key under which it is listed. -/
def Keyed (p : Program) (s : Sharing) : Prop :=
  ∀ (key : Node ProcessId) (id : ProcessId), s.terms[key]? = some id → ∃ node, p.node? id = some node ∧ node.key = key

/-- The program and the notes are right about each other. -/
structure Intact (k : Program × Sharing) : Prop where
  exists_faithful : ∃ m defs, Faithful m defs k
  keyed : Keyed k.1 k.2

variable {k k' : Program × Sharing} {p q : Program} {s : Sharing} {m : ProcessId → Term}
  {defs : String → Term → Prop} {S : ProcessId → Prop} {node : Node ProcessId} {key : Node ProcessId} {id : ProcessId}

/-! ### What is listed stays listed -/

/-- Entries of the table of terms are never replaced. -/
theorem Change.terms_eq (h : Change k k') (hkey : k.2.terms[key]? = some id) : k'.2.terms[key]? = some id := by
  cases h with
  | build => exact hkey
  | move h =>
    cases h with
    | enter =>
      rw [terms_enter, if_neg]
      · exact hkey
      · rintro ⟨-, -, hnone⟩
        rw [hkey] at hnone
        cases hnone
    | redirect => exact hkey
  | intern h =>
    obtain rfl | ⟨node, -, -, hnone, rfl⟩ := h.cases
    · exact hkey
    · rw [terms_register, if_neg]
      · exact hkey
      · rintro rfl
        rw [hkey] at hnone
        cases hnone

theorem terms_eq_of_changes (h : ReflTransGen Change k k') (hkey : k.2.terms[key]? = some id) :
    k'.2.terms[key]? = some id := by
  induction h with
  | refl => exact hkey
  | tail _ hchange ih => exact hchange.terms_eq ih

theorem changes_of_moves (h : ReflTransGen (Move fun _ => True) k k') : ReflTransGen Change k k' :=
  h.lift (fun k => k) fun _ _ => .move

theorem changes_of_interns (h : ReflTransGen InternStep k k') : ReflTransGen Change k k' :=
  h.lift (fun k => k) fun _ _ => .intern

theorem Change.size_le (h : Change k k') : k.1.size ≤ k'.1.size := by
  cases h with
  | build _ h => exact h.size_le
  | move h => cases h <;> exact Nat.le_of_eq (Program.size_write _ _ _).symm
  | intern h => exact size_le_of_built (built_of_interns (.single h))

theorem size_le_of_changes (h : ReflTransGen Change k k') : k.1.size ≤ k'.1.size := by
  induction h with
  | refl => exact Nat.le_refl _
  | tail _ hchange ih => exact Nat.le_trans ih hchange.size_le

/-! ### What one change preserves -/

theorem Faithful.move (hk : Faithful m defs k) (h : Move S k k') : Faithful m defs k' := by
  cases h with
  | enter _ hnode hnew hrel => exact (hk.enter hnode hnew hrel).1
  | redirect hnode _ hbody => exact (hk.redirect hnode hbody).1

theorem Faithful.register (hk : Faithful m defs (p, s)) (hn : node.name? = none)
    (hc : ∀ c ∈ node.children, c < p.size) :
    ∃ m', Faithful m' defs ((p.add node).2, s.register p.size node) := by
  refine ⟨((⟨p, m⟩ : Reading).add node).term, hk.models.add Reordered.refl hn hc, hk.sound.register hc, ?_, ?_⟩
  · intro x c hx
    rw [canonical?_register] at hx ⊢
    split at hx
    · cases hx
      exact if_pos rfl
    · split
      · rename_i hold
        rw [hold]
      · exact hk.coherent.canonical_canonical hx
  · intro key x hx
    rw [terms_register] at hx
    rw [canonical?_register]
    split at hx
    · cases hx
      exact if_pos rfl
    · split
      · rename_i hold
        rw [hold]
      · exact hk.coherent.terms_canonical hx

/-- What was built before keeps its key, so the table is right as long as it speaks of nothing else. -/
theorem Keyed.build (h : Keyed p s) (hstep : BuildStep p q) : Keyed q s := by
  intro key id hkey
  obtain ⟨old, hold, rfl⟩ := h key id hkey
  have hlt := Program.lt_size_of_node? hold
  obtain ⟨node, hnode⟩ := Program.exists_node_of_lt (Nat.lt_of_lt_of_le hlt hstep.size_le)
  obtain ⟨old', hold', hkey', -⟩ := hstep.exists_key hlt hnode
  rw [hold] at hold'
  cases hold'
  exact ⟨node, hnode, hkey'.symm⟩

/-- Only what was not canonical is written over its subterms, and the table speaks of canonical nodes. -/
theorem Keyed.move (h : Keyed k.1 k.2) (hk : Coherent k.2) (hmove : Move S k k') : Keyed k'.1 k'.2 := by
  intro key x hkey
  cases hmove with
  | @enter p s id node node' _ hnode hnew hrel =>
    rw [terms_enter] at hkey
    split at hkey
    · rename_i hentered
      obtain ⟨-, rfl, -⟩ := hentered
      cases hkey
      exact ⟨node', (Program.node?_write_of_lt (Program.lt_size_of_node? hnode) _ _).trans (if_pos rfl), rfl⟩
    · have hne : id ≠ x := by
        rintro rfl
        rw [hk.terms_canonical hkey] at hnew
        cases hnew
      rw [Program.node?_write_of_lt (Program.lt_size_of_node? hnode), if_neg hne]
      exact h key x hkey
  | @redirect p s id c body body' name hnode hid hbody =>
    obtain ⟨node, hx, hkey⟩ := h key x hkey
    rw [Program.node?_write_of_lt (Program.lt_size_of_node? hnode)]
    split
    · -- the key of a name does not mention its definition
      rename_i hidx
      rw [← hidx, hnode] at hx
      cases hx
      exact ⟨.named name (some body'), rfl, hkey⟩
    · exact ⟨node, hx, hkey⟩

theorem Keyed.register (h : Keyed p s) : Keyed (p.add node).2 (s.register p.size node) := by
  intro key x hkey
  rw [terms_register] at hkey
  rw [Program.node?_add]
  split at hkey
  · rename_i hown
    cases hkey
    exact ⟨node, if_pos rfl, hown⟩
  · obtain ⟨old, hold, hkey⟩ := h key x hkey
    rw [if_neg (Nat.ne_of_lt (Program.lt_size_of_node? hold))]
    exact ⟨old, hold, hkey⟩

namespace Intact

theorem empty : Intact (∅, ∅) := by
  obtain ⟨m, defs, hk⟩ := SharingHistory.exists_shared .refl
  exact ⟨⟨m, defs, hk.faithful⟩, fun key id hkey => by simp at hkey⟩

/-- What one change preserves. -/
theorem change (h : Intact k) (hchange : Change k k') : Intact k' := by
  obtain ⟨m, defs, hk⟩ := h.exists_faithful
  cases hchange with
  | build s hstep =>
    obtain ⟨m', hk', -⟩ := hk.build hstep
    exact ⟨⟨m', _, hk'⟩, h.keyed.build hstep⟩
  | move hmove => exact ⟨⟨m, defs, hk.move hmove⟩, h.keyed.move hk.coherent hmove⟩
  | intern hstep =>
    obtain rfl | ⟨node, hn, hc, -, rfl⟩ := hstep.cases
    · exact h
    · obtain ⟨m', hk'⟩ := hk.register hn hc
      exact ⟨⟨m', defs, hk'⟩, h.keyed.register⟩

theorem changes (h : Intact k) (hchanges : ReflTransGen Change k k') : Intact k' := by
  induction hchanges with
  | refl => exact h
  | tail _ hchange ih => exact ih.change hchange

/-- A process has one key, so different keys list different processes. -/
theorem key_unique (h : Intact k) {key key' : Node ProcessId} (hkey : k.2.terms[key]? = some id)
    (hkey' : k.2.terms[key']? = some id) : key = key' := by
  obtain ⟨node, hnode, rfl⟩ := h.keyed key id hkey
  obtain ⟨node', hnode', rfl⟩ := h.keyed key' id hkey'
  rw [hnode] at hnode'
  cases hnode'
  rfl

/-- Sharing of a term is a sequence of changes, whether the term exists or not. -/
theorem changes_share (h : Intact k) (id : ProcessId) : ReflTransGen Change k (after (share id) k) := by
  obtain ⟨m, defs, hk⟩ := h.exists_faithful
  refine Ends.after (P := ReflTransGen Change k) ?_
  by_cases hid : id < k.1.size
  · exact (ends_share_moves hk (.all k) hid fun _ => trivial).mono (fun _ _ h => changes_of_moves h.1.moves)
      fun _ _ h => h.elim
  · refine (ends_share_of_le hk (Nat.le_of_not_lt hid)).mono (fun _ _ h => h.elim) ?_
    rintro _ _ ⟨-, rfl⟩
    exact .refl

theorem changes_shareProgram (h : Intact k) : ReflTransGen Change k (after shareProgram k) := by
  obtain ⟨m, defs, hk⟩ := h.exists_faithful
  refine Ends.after (P := ReflTransGen Change k) ?_
  exact (ends_shareProgram_moves hk (.all k) fun _ _ _ _ => trivial).mono
    (fun _ _ h => changes_of_moves h.1.moves) fun _ _ h => h.elim

/-- A term former that is interned is found in the program, up to the order of operands. At most one node is added, and
the others stay as they are. After any further changes, the same process is found again. -/
theorem exists_intern (h : Intact k) (hn : node.name? = none) :
    ∃ id k₁, intern node k = .ok id k₁ ∧
      (∃ node', k₁.1.node? id = some node' ∧ (node' = node ∨ node' = node.swapped)) ∧ k₁.1.size ≤ k.1.size + 1 ∧
      (∀ x old, k.1.node? x = some old → k₁.1.node? x = some old) ∧
      ∀ k₂, ReflTransGen Change k₁ k₂ → ∀ again, again = node ∨ again = node.swapped → intern again k₂ = .ok id k₂ := by
  obtain ⟨p, s⟩ := k
  have hagain {id : ProcessId} {k₁ : Program × Sharing} (hkey : k₁.2.terms[node.key]? = some id)
      (k₂ : Program × Sharing) (hlater : ReflTransGen Change k₁ k₂) (again : Node ProcessId)
      (hor : again = node ∨ again = node.swapped) : intern again k₂ = .ok id k₂ := by
    refine intern_of_known ?_
    rw [(Node.key_eq_iff hn).2 hor]
    exact terms_eq_of_changes hlater hkey
  cases hkey : s.terms[node.key]? with
  | some id =>
    obtain ⟨node', hnode', hkey'⟩ := h.keyed _ _ hkey
    exact ⟨id, (p, s), intern_of_known hkey, ⟨node', hnode', (Node.key_eq_iff hn).1 hkey'⟩, Nat.le_succ _,
      fun _ _ hx => hx, hagain hkey⟩
  | none =>
    refine ⟨p.size, _, intern_of_unknown hkey, ⟨node, ?_, .inl rfl⟩, ?_, fun x old hx => ?_, hagain ?_⟩
    · rw [Program.node?_add, if_pos rfl]
    · exact Nat.le_of_eq (p.size_add node)
    · rw [Program.node?_add, if_neg (Nat.ne_of_lt (Program.lt_size_of_node? hx))]
      exact hx
    · rw [terms_register, if_pos rfl]

end Intact

end Sharing

end ProcessCalculus
