import ProcessCalculus.Program.Sharing
import ProcessCalculus.Proofs.Order.Table
import ProcessCalculus.Proofs.Program.Outcome
import ProcessCalculus.Proofs.Program.Reading

/-!
# Canonical nodes

What holds of the notes of sharing, and of the program that it rewrites.

* `Sharing.Sound`: keys and canonical nodes stand for the terms that they are kept for. This speaks of the reading
  alone, so it stays true whatever is done to nodes.
* `Sharing.Coherent`: what is canonical for some process is canonical for itself.
* `Sharing.Settled`: visited nodes are over canonical ones and are entered under their keys.
* `Sharing.Shared.canonical_eq`: equal terms without operators have one canonical node.
-/

namespace ProcessCalculus

open Term

namespace Node

variable {node : Node ProcessId} {m : ProcessId → Term}

@[simp] theorem mem_children_key {c : ProcessId} : c ∈ node.key.children ↔ c ∈ node.children := by
  cases node with
  | sum l r | parallel l r =>
    by_cases h : l ≤ r <;> simp [key, ordered, h, children, or_comm]
  | _ => rfl

/-- The key of a node says the same, up to the order of operands. -/
theorem key_term (node : Node ProcessId) (m : ProcessId → Term) :
    Reordered (node.key.term m) (node.term m) := by
  cases node with
  | sum l r =>
    by_cases h : l ≤ r
    · simp only [key, ordered, h, if_true]
      exact .refl _
    · simp only [key, ordered, h, if_false]
      exact .sumSwap (.refl _) (.refl _)
  | parallel l r =>
    by_cases h : l ≤ r
    · simp only [key, ordered, h, if_true]
      exact .refl _
    · simp only [key, ordered, h, if_false]
      exact .parallelSwap (.refl _) (.refl _)
  | _ => exact .refl _

theorem ordered_comm {f : ProcessId → ProcessId → Node ProcessId} (l r : ProcessId) :
    ordered f l r = ordered f r l := by
  unfold ordered
  by_cases h : l ≤ r <;> by_cases h' : r ≤ l
  · rw [Nat.le_antisymm h h']
  · rw [if_pos h, if_neg h']
  · rw [if_neg h, if_pos h']
  · exact absurd (Nat.le_of_not_le h) h'

/-- Nodes without operators that say the same, up to the order of operands, have one key if equal subterms are
equal identifiers. -/
theorem key_eq_of_reordered {node' : Node ProcessId}
    (h : Reordered (node.term m) (node'.term m)) (hop : node.isOperator = false)
    (hc : ∀ c ∈ node.children, ∀ d ∈ node'.children, Reordered (m c) (m d) → c = d) :
    node.key = node'.key := by
  cases node <;> cases node' <;> simp only [term] at h <;> cases h <;>
    simp only [isOperator, Bool.true_eq_false] at hop
  case null.null => rfl
  case named.named => rfl
  case sum.sum.sum hl hr =>
    rw [hc _ (by simp [children]) _ (by simp [children]) hl, hc _ (by simp [children]) _ (by simp [children]) hr]
  case sum.sum.sumSwap hl hr =>
    rw [hc _ (by simp [children]) _ (by simp [children]) hl, hc _ (by simp [children]) _ (by simp [children]) hr]
    exact ordered_comm _ _
  case parallel.parallel.parallel hl hr =>
    rw [hc _ (by simp [children]) _ (by simp [children]) hl, hc _ (by simp [children]) _ (by simp [children]) hr]
  case parallel.parallel.parallelSwap hl hr =>
    rw [hc _ (by simp [children]) _ (by simp [children]) hl, hc _ (by simp [children]) _ (by simp [children]) hr]
    exact ordered_comm _ _
  case act.act.act h => rw [hc _ (by simp [children]) _ (by simp [children]) h]
  case delay.delay.delay h => rw [hc _ (by simp [children]) _ (by simp [children]) h]

end Node

namespace Sharing

/-- The notes are right about the terms that identifiers stand for. -/
structure Sound (r : Reading) (s : Sharing) : Prop where
  terms_sound {key : Node ProcessId} {id : ProcessId} : s.terms[key]? = some id →
    id < r.program.size ∧ (∀ c ∈ key.children, c < r.program.size) ∧
      Reordered (key.term r.term) (r.term id)
  canonical_sound {id c : ProcessId} : s.canonical? id = some c →
    id < r.program.size ∧ c < r.program.size ∧ Reordered (r.term id) (r.term c)

/-- The notes are closed, and visited nodes of the program are as the notes say. -/
structure Settled (p : Program) (s : Sharing) : Prop where
  canonical_canonical {id c : ProcessId} : s.canonical? id = some c → s.canonical? c = some c
  terms_canonical {key : Node ProcessId} {id : ProcessId} :
    s.terms[key]? = some id → s.canonical? id = some id
  children_canonical {id c : ProcessId} {node : Node ProcessId} :
    s.canonical? id = some c → p.node? id = some node →
      ∀ child ∈ node.children, s.canonical? child = some child
  key_entered {id c : ProcessId} {node : Node ProcessId} :
    s.canonical? id = some c → p.node? id = some node → node.isOperator = false →
      s.terms[node.key]? = some c

/-- The part of what is settled that speaks of the notes alone. -/
structure Coherent (s : Sharing) : Prop where
  canonical_canonical {id c : ProcessId} : s.canonical? id = some c → s.canonical? c = some c
  terms_canonical {key : Node ProcessId} {id : ProcessId} :
    s.terms[key]? = some id → s.canonical? id = some id

@[simp] theorem canonical?_empty (id : ProcessId) : (∅ : Sharing).canonical? id = none :=
  Std.TreeMap.getElem?_emptyc

@[simp] theorem terms_empty (key : Node ProcessId) : (∅ : Sharing).terms[key]? = none :=
  Std.TreeMap.getElem?_emptyc

section Enter

variable (id : ProcessId) (node : Node ProcessId) (s : Sharing)

theorem canonical?_enter (other : ProcessId) :
    (enter id node s).canonical? other =
      if id = other then some ((if node.isOperator then none else s.terms[node.key]?).getD id)
      else s.canonical? other :=
  Table.getElem?_insert s.canonical id other _

theorem terms_enter (key : Node ProcessId) :
    (enter id node s).terms[key]? =
      if node.isOperator = false ∧ node.key = key ∧ s.terms[key]? = none then some id
      else s.terms[key]? := by
  unfold enter
  cases node.isOperator with
  | true => simp
  | false =>
    simp only [Bool.false_eq_true, if_false, Table.getElem?_insertIfNew, true_and]

end Enter

variable {r r' : Reading} {p : Program} {s : Sharing} {id : ProcessId} {node : Node ProcessId}

namespace Sound

theorem empty (r : Reading) : Sound r ∅ where
  terms_sound h := by simp at h
  canonical_sound h := by simp at h

theorem keeps (h : Sound r s) (hk : r.Keeps r') : Sound r' s where
  terms_sound {key id} hid := by
    obtain ⟨hlt, hc, hmeans⟩ := h.terms_sound hid
    refine ⟨Nat.lt_of_lt_of_le hlt hk.size_le, fun c hm => Nat.lt_of_lt_of_le (hc c hm) hk.size_le, ?_⟩
    rwa [hk.node_term hc, hk.term_eq hlt]
  canonical_sound {id c} hid := by
    obtain ⟨hlt, hltc, hmeans⟩ := h.canonical_sound hid
    refine ⟨Nat.lt_of_lt_of_le hlt hk.size_le, Nat.lt_of_lt_of_le hltc hk.size_le, ?_⟩
    rwa [hk.term_eq hlt, hk.term_eq hltc]

theorem enter (h : Sound r s) (hid : id < r.program.size) (hc : ∀ c ∈ node.children, c < r.program.size)
    (hmeans : Reordered (r.term id) (node.term r.term)) : Sound r (s.enter id node) where
  terms_sound {key id'} hkey := by
    rw [terms_enter] at hkey
    split at hkey
    · rename_i hnew
      obtain ⟨-, rfl, -⟩ := hnew
      cases hkey
      exact ⟨hid, fun c hm => hc c (Node.mem_children_key.1 hm), (node.key_term r.term).trans hmeans.symm⟩
    · exact h.terms_sound hkey
  canonical_sound {id' c} hcan := by
    rw [canonical?_enter] at hcan
    split at hcan
    · rename_i hid'
      subst hid'
      cases hop : node.isOperator with
      | true =>
        rw [hop] at hcan
        cases hcan
        exact ⟨hid, hid, .refl _⟩
      | false =>
        cases hk : s.terms[node.key]? with
        | none =>
          rw [hop, hk] at hcan
          cases hcan
          exact ⟨hid, hid, .refl _⟩
        | some known =>
          rw [hop, hk] at hcan
          cases hcan
          obtain ⟨hlt, -, hknown⟩ := h.terms_sound hk
          exact ⟨hid, hlt, (hmeans.trans (node.key_term r.term).symm).trans hknown⟩
    · exact h.canonical_sound hcan

end Sound

/-- Visited identifiers stay visited. -/
theorem canonical?_enter_of_new (hnew : s.canonical? id = none) {other c : ProcessId}
    (ho : s.canonical? other = some c) : (s.enter id node).canonical? other = some c := by
  rw [canonical?_enter, if_neg]
  · exact ho
  · rintro rfl
    rw [hnew] at ho
    cases ho

namespace Coherent

theorem empty : Coherent ∅ where
  canonical_canonical h := by simp at h
  terms_canonical h := by simp at h

/-- The canonical node of a node that is entered is canonical. -/
private theorem canonical_known (h : Coherent s) {c : ProcessId}
    (hc : (if node.isOperator then none else s.terms[node.key]?).getD id = c) :
    (s.enter id node).canonical? c = some c := by
  rw [canonical?_enter]
  split
  · rename_i hid
    subst hid
    rw [hc]
  · rename_i hid
    cases hop : node.isOperator with
    | true =>
      rw [hop] at hc
      exact absurd hc hid
    | false =>
      cases hk : s.terms[node.key]? with
      | none =>
        rw [hop, hk] at hc
        exact absurd hc hid
      | some known =>
        rw [hop, hk] at hc
        cases hc
        exact h.terms_canonical hk

theorem enter (h : Coherent s) (hnew : s.canonical? id = none) : Coherent (s.enter id node) where
  canonical_canonical {other c} hcan := by
    rw [canonical?_enter] at hcan
    split at hcan
    · exact h.canonical_known (Option.some.inj hcan)
    · exact canonical?_enter_of_new hnew (h.canonical_canonical hcan)
  terms_canonical {key other} hkey := by
    rw [terms_enter] at hkey
    split at hkey
    · rename_i hentered
      obtain ⟨hop, rfl, hk⟩ := hentered
      cases hkey
      rw [canonical?_enter, if_pos rfl, hop, hk]
      rfl
    · exact canonical?_enter_of_new hnew (h.terms_canonical hkey)

end Coherent

namespace Settled

theorem empty (p : Program) : Settled p ∅ where
  canonical_canonical h := by simp at h
  terms_canonical h := by simp at h
  children_canonical h := by simp at h
  key_entered h := by simp at h

theorem coherent (h : Settled p s) : Coherent s where
  canonical_canonical := h.canonical_canonical
  terms_canonical := h.terms_canonical

/-- What is settled depends on the keys of visited nodes only. -/
theorem of_keys {q : Program} (h : Settled p s)
    (hpq : ∀ id c, s.canonical? id = some c → ∀ node, q.node? id = some node →
      ∃ old, p.node? id = some old ∧ old.key = node.key ∧ old.isOperator = node.isOperator) :
    Settled q s where
  canonical_canonical := h.canonical_canonical
  terms_canonical := h.terms_canonical
  children_canonical {id c node} hid hnode child hm := by
    obtain ⟨old, hold, hkey, -⟩ := hpq id c hid node hnode
    rw [← Node.mem_children_key, ← hkey, Node.mem_children_key] at hm
    exact h.children_canonical hid hold child hm
  key_entered {id c node} hid hnode hop := by
    obtain ⟨old, hold, hkey, hop'⟩ := hpq id c hid node hnode
    rw [← hkey]
    exact h.key_entered hid hold (hop'.trans hop)

private theorem terms_enter_of_known {key : Node ProcessId} {c : ProcessId} (hk : s.terms[key]? = some c) :
    (s.enter id node).terms[key]? = some c := by
  rw [terms_enter, if_neg]
  · exact hk
  · rintro ⟨-, -, hnone⟩
    rw [hk] at hnone
    cases hnone

/-- A node without operators is entered under its key. -/
private theorem terms_enter_own (hop : node.isOperator = false) {c : ProcessId}
    (hcan : (s.enter id node).canonical? id = some c) : (s.enter id node).terms[node.key]? = some c := by
  rw [canonical?_enter, if_pos rfl, hop] at hcan
  cases hk : s.terms[node.key]? with
  | none =>
    rw [hk] at hcan
    rw [terms_enter, if_pos ⟨hop, rfl, hk⟩]
    exact hcan
  | some known =>
    rw [hk] at hcan
    exact terms_enter_of_known (hk.trans hcan)

theorem enter (h : Settled p s) (hid : id < p.size) (hnew : s.canonical? id = none)
    (hc : ∀ c ∈ node.children, s.canonical? c = some c) :
    Settled (p.write id node) (s.enter id node) where
  canonical_canonical := (h.coherent.enter hnew).canonical_canonical
  terms_canonical := (h.coherent.enter hnew).terms_canonical
  children_canonical {other c n} hcan hn child hm := by
    rw [Program.node?_write_of_lt hid] at hn
    split at hn
    · cases hn
      exact canonical?_enter_of_new hnew (hc child hm)
    · rename_i hother
      rw [canonical?_enter, if_neg hother] at hcan
      exact canonical?_enter_of_new hnew (h.children_canonical hcan hn child hm)
  key_entered {other c n} hcan hn hop := by
    rw [Program.node?_write_of_lt hid] at hn
    split at hn
    · rename_i hother
      cases hn
      subst hother
      exact terms_enter_own hop hcan
    · rename_i hother
      rw [canonical?_enter, if_neg hother] at hcan
      exact terms_enter_of_known (h.key_entered hcan hn hop)

end Settled

/-- What holds of a program and of the notes of sharing. The reading `m` and the definitions `defs` stay the
same while terms are shared. -/
structure Shared (m : ProcessId → Term) (defs : String → Term → Prop) (k : Program × Sharing) : Prop where
  models : Reading.Models Reordered defs ⟨k.1, m⟩
  sound : Sound ⟨k.1, m⟩ k.2
  settled : Settled k.1 k.2

/-- A run of sharing that enters only terms of less than a given height. -/
structure Advances (m : ProcessId → Term) (height : Nat) (k k' : Program × Sharing) : Prop where
  rewrites : Reading.Rewrites ⟨k.1, m⟩ ⟨k'.1, m⟩
  canonical? {id c : ProcessId} : k.2.canonical? id = some c → k'.2.canonical? id = some c
  height_lt {id c : ProcessId} :
    k.2.canonical? id = none → k'.2.canonical? id = some c → (m id).height < height

/-- Terms without operators that are equal up to the order of operands have one canonical node. By induction on
the terms: the subterms of their nodes are canonical, so equal ones are the same identifiers. -/
theorem Shared.canonical_eq {m : ProcessId → Term} {defs : String → Term → Prop} {p : Program} {s : Sharing}
    (h : Shared m defs (p, s)) {id id' c c' : ProcessId} (hc : s.canonical? id = some c)
    (hc' : s.canonical? id' = some c') (hfree : (m id).OperatorFree) (heq : Reordered (m id) (m id')) :
    c = c' := by
  induction hk : (m id).height using Nat.strongRecOn generalizing id id' c c' with
  | ind k ih =>
    obtain ⟨node, hnode⟩ := Program.exists_node_of_lt (h.sound.canonical_sound hc).1
    obtain ⟨node', hnode'⟩ := Program.exists_node_of_lt (h.sound.canonical_sound hc').1
    have hmeans : Reordered (m id) (node.term m) := h.models.node_le hnode
    have hmeans' : Reordered (m id') (node'.term m) := h.models.node_le hnode'
    have heq' := (hmeans.symm.trans heq).trans hmeans'
    obtain ⟨hop, hsub⟩ := Node.operatorFree_term_iff.1 (hmeans.operatorFree hfree)
    obtain ⟨hop', -⟩ := Node.operatorFree_term_iff.1 (heq'.operatorFree (hmeans.operatorFree hfree))
    -- equal subterms are one identifier already, since they are canonical
    have hkey : node.key = node'.key := by
      refine Node.key_eq_of_reordered heq' hop fun d hd d' hd' hdd => ?_
      refine ih (m d).height ?_ (h.settled.children_canonical hc hnode d hd)
        (h.settled.children_canonical hc' hnode' d' hd') (hsub d hd) hdd rfl
      rw [← hk, hmeans.height_eq]
      exact Node.height_lt_of_mem_children hd
    have hentered := h.settled.key_entered hc hnode hop
    rw [hkey, h.settled.key_entered hc' hnode' hop', Option.some.injEq] at hentered
    exact hentered.symm

namespace Advances

variable {m : ProcessId → Term} {height : Nat} {k k' k'' : Program × Sharing}

theorem refl (m : ProcessId → Term) (height : Nat) (k : Program × Sharing) : Advances m height k k where
  rewrites := .refl _
  canonical? h := h
  height_lt h h' := by
    rw [h] at h'
    cases h'

theorem trans (h : Advances m height k k') (h' : Advances m height k' k'') :
    Advances m height k k'' where
  rewrites := h.rewrites.trans h'.rewrites
  canonical? hc := h'.canonical? (h.canonical? hc)
  height_lt {id c} hnone hc := by
    cases hk : k'.2.canonical? id with
    | none => exact h'.height_lt hk hc
    | some d => exact h.height_lt hnone hk

theorem mono (h : Advances m height k k') {height' : Nat} (hle : height ≤ height') :
    Advances m height' k k' where
  rewrites := h.rewrites
  canonical? := h.canonical?
  height_lt hnone hc := Nat.lt_of_lt_of_le (h.height_lt hnone hc) hle

end Advances

end Sharing

end ProcessCalculus
