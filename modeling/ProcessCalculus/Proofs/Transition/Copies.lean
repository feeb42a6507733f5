import Mathlib.Algebra.Order.BigOperators.Group.Finset
import ProcessCalculus.Proofs.Transition.Growth

/-!
# How many processes stand for one term

Two processes that were added stand for equal terms only if some of their subterms are different processes, since equal
nodes are interned once. So the number of processes for a term is bounded by those for its subterms, and the size of the
program by the terms of the processes that were added.

* `Term.copiesBound`: the bound for a term, from the number of processes at the start.
* `Reading.copies`: the processes that stand for a term.
* `Expansion.Interned.card_copies_le`: these are no more than the bound.
* `Expansion.Interned.size_le_of_covers`: a bound for the program, if the processes that were added stand for given
  terms.
-/

namespace ProcessCalculus

open Term

/-- The number of processes that can stand for the term if `n` processes are there at the start and all others are
interned. -/
def Term.copiesBound (n : Nat) : Term → Nat
  | null | name _ => n + 1
  | sum l r | parallel l r => n + (l.copiesBound n + r.copiesBound n) ^ 2
  | act _ t | restrict t _ | rename t _ | delay _ t => n + t.copiesBound n

open Classical in
/-- The processes that stand for a term, up to the order of operands. -/
noncomputable def Reading.copies (r : Reading) (t : Term) : Finset ProcessId :=
  {x ∈ Finset.range r.program.size | Reordered (r.term x) t}

namespace Expansion.Interned

variable {r : Reading} {e : Expansion} {k : Program × Expansion} {t : Term} {x : ProcessId}

theorem mem_copies : x ∈ r.copies t ↔ x < r.program.size ∧ Reordered (r.term x) t := by
  simp [Reading.copies]

/-- The new processes for a term have different keys. -/
private theorem card_copies_le_of_keys (h : Interned k (r.program, e)) (keys : Finset (Node ProcessId))
    (hkeys : ∀ x ∈ r.copies t, ∀ node, r.program.node? x = some node → node.key ∈ keys) :
    (r.copies t).card ≤ k.1.size + keys.card := by
  classical
  let key (x : ProcessId) : Node ProcessId := ((r.program.node? x).map Node.key).getD .null
  have hkeyed (x : ProcessId) (hx : x ∈ {x ∈ r.copies t | ¬ x < k.1.size}) :
      key x ∈ keys ∧ e.sharing.terms[key x]? = some x := by
    obtain ⟨hcopy, hge⟩ := Finset.mem_filter.1 hx
    obtain ⟨node, hnode, hkey⟩ := h.keyed (Nat.le_of_not_lt hge) (mem_copies.1 hcopy).1
    rw [show key x = node.key from by simp only [key]; rw [show r.program.node? x = some node from hnode]; rfl]
    exact ⟨hkeys x hcopy node hnode, hkey⟩
  rw [← Finset.card_filter_add_card_filter_not (· < k.1.size)]
  refine Nat.add_le_add ?_ ?_
  · refine Nat.le_trans (Finset.card_le_card fun x hx => ?_) (Nat.le_of_eq (Finset.card_range k.1.size))
    exact Finset.mem_range.2 (Finset.mem_filter.1 hx).2
  · refine Finset.card_le_card_of_injOn key (fun x hx => (hkeyed x hx).1) fun x hx y hy hxy => ?_
    have hterms := (hkeyed x hx).2
    rw [hxy, (hkeyed y hy).2] at hterms
    exact (Option.some.inj hterms).symm

open Classical in
/-- The keys of one former of two processes, each of them from one of two sets. -/
private noncomputable def pairs (f : ProcessId → ProcessId → Node ProcessId) (ids ids' : Finset ProcessId) :
    Finset (Node ProcessId) :=
  ((ids ∪ ids') ×ˢ (ids ∪ ids')).image fun p => f p.1 p.2

private theorem card_pairs_le (f : ProcessId → ProcessId → Node ProcessId) {ids ids' : Finset ProcessId} {m m' : Nat}
    (h : ids.card ≤ m) (h' : ids'.card ≤ m') : (pairs f ids ids').card ≤ (m + m') ^ 2 := by
  classical
  have hunion : (ids ∪ ids').card ≤ m + m' := Nat.le_trans (Finset.card_union_le _ _) (Nat.add_le_add h h')
  refine Nat.le_trans Finset.card_image_le ?_
  rw [Finset.card_product, Nat.pow_two]
  exact Nat.mul_le_mul hunion hunion

/-- The key of a sum or of a parallel composition lists the same two subterms, in the one or the other order. -/
private theorem ordered_mem_pairs (f : ProcessId → ProcessId → Node ProcessId) {ids ids' : Finset ProcessId}
    {c d : ProcessId} (h : c ∈ ids ∧ d ∈ ids' ∨ c ∈ ids' ∧ d ∈ ids) : Node.ordered f c d ∈ pairs f ids ids' := by
  have hmem (x : ProcessId) (hx : x = c ∨ x = d) : x ∈ ids ∪ ids' := by
    rcases hx with rfl | rfl <;> rcases h with h | h <;> simp [h]
  refine Finset.mem_image.2 ?_
  unfold Node.ordered
  split
  · exact ⟨(c, d), Finset.mem_product.2 ⟨hmem c (.inl rfl), hmem d (.inr rfl)⟩, rfl⟩
  · exact ⟨(d, c), Finset.mem_product.2 ⟨hmem d (.inr rfl), hmem c (.inl rfl)⟩, rfl⟩

/-- One former of the processes for a subterm. -/
private theorem card_copies_le_of_image (h : Interned k (r.program, e)) {p : Term} {m : Nat}
    (hcard : (r.copies p).card ≤ m) (f : ProcessId → Node ProcessId)
    (hkeys : ∀ x ∈ r.copies t, ∀ node, r.program.node? x = some node → ∃ c ∈ r.copies p, node.key = f c) :
    (r.copies t).card ≤ k.1.size + m := by
  classical
  refine Nat.le_trans (h.card_copies_le_of_keys ((r.copies p).image f) fun x hx node hnode => ?_)
    (Nat.add_le_add_left (Nat.le_trans Finset.card_image_le hcard) _)
  obtain ⟨c, hc, hkey⟩ := hkeys x hx node hnode
  exact hkey ▸ Finset.mem_image_of_mem f hc

/-- By induction on the term: the key of a process for it is made of processes for its subterms. -/
theorem card_copies_le (h : Interned k (r.program, e)) (hr : r.Valid Reordered) (t : Term) :
    (r.copies t).card ≤ t.copiesBound k.1.size := by
  have hterm {t : Term} {x : ProcessId} (hx : x ∈ r.copies t) {node : Node ProcessId}
      (hnode : r.program.node? x = some node) :
      Reordered (node.term r.term) t ∧ ∀ c ∈ node.children, c < r.program.size :=
    ⟨(hr.node_le hnode).symm.trans (mem_copies.1 hx).2, hr.wellFormed.child_lt hnode⟩
  have hcopy {c : ProcessId} {t : Term} {children : List ProcessId} (hlt : ∀ c ∈ children, c < r.program.size)
      (hle : Reordered (r.term c) t) (hc : c ∈ children := by simp [Node.children]) : c ∈ r.copies t :=
    mem_copies.2 ⟨hlt c hc, hle⟩
  induction t with
  | null =>
    refine h.card_copies_le_of_keys {.null} fun x hx node hnode => ?_
    obtain ⟨hle, -⟩ := hterm hx hnode
    cases node <;> cases hle
    exact Finset.mem_singleton_self _
  | name n =>
    refine h.card_copies_le_of_keys {.named n none} fun x hx node hnode => ?_
    obtain ⟨hle, -⟩ := hterm hx hnode
    cases node <;> cases hle
    exact Finset.mem_singleton_self _
  | sum s s' ih ih' =>
    refine Nat.le_trans (h.card_copies_le_of_keys (pairs .sum (r.copies s) (r.copies s')) fun x hx node hnode => ?_)
      (Nat.add_le_add_left (card_pairs_le .sum ih ih') _)
    obtain ⟨hle, hlt⟩ := hterm hx hnode
    match node, hle, hlt with
    | .sum c d, .sum hl hr, hlt => exact ordered_mem_pairs .sum (.inl ⟨hcopy hlt hl, hcopy hlt hr⟩)
    | .sum c d, .sumSwap hl hr, hlt => exact ordered_mem_pairs .sum (.inr ⟨hcopy hlt hl, hcopy hlt hr⟩)
  | parallel s s' ih ih' =>
    refine Nat.le_trans (h.card_copies_le_of_keys (pairs .parallel (r.copies s) (r.copies s'))
      fun x hx node hnode => ?_) (Nat.add_le_add_left (card_pairs_le .parallel ih ih') _)
    obtain ⟨hle, hlt⟩ := hterm hx hnode
    match node, hle, hlt with
    | .parallel c d, .parallel hl hr, hlt => exact ordered_mem_pairs .parallel (.inl ⟨hcopy hlt hl, hcopy hlt hr⟩)
    | .parallel c d, .parallelSwap hl hr, hlt =>
      exact ordered_mem_pairs .parallel (.inr ⟨hcopy hlt hl, hcopy hlt hr⟩)
  | act a p ih =>
    refine h.card_copies_le_of_image ih (.act a) fun x hx node hnode => ?_
    obtain ⟨hle, hlt⟩ := hterm hx hnode
    match node, hle, hlt with
    | .act _ c, .act _ hp, hlt => exact ⟨c, hcopy hlt hp, rfl⟩
  | restrict p labels ih =>
    refine h.card_copies_le_of_image ih (.restrict · labels) fun x hx node hnode => ?_
    obtain ⟨hle, hlt⟩ := hterm hx hnode
    match node, hle, hlt with
    | .restrict c _, .restrict hp _, hlt => exact ⟨c, hcopy hlt hp, rfl⟩
  | rename p renames ih =>
    refine h.card_copies_le_of_image ih (.rename · renames) fun x hx node hnode => ?_
    obtain ⟨hle, hlt⟩ := hterm hx hnode
    match node, hle, hlt with
    | .rename c _, .rename hp _, hlt => exact ⟨c, hcopy hlt hp, rfl⟩
  | delay d p ih =>
    refine h.card_copies_le_of_image ih (.delay d) fun x hx node hnode => ?_
    obtain ⟨hle, hlt⟩ := hterm hx hnode
    match node, hle, hlt with
    | .delay _ c, .delay _ hp, hlt => exact ⟨c, hcopy hlt hp, rfl⟩

/-- If all that was added stands for given terms, the size of the program is bounded. -/
theorem size_le_of_covers (h : Interned k (r.program, e)) (hr : r.Valid Reordered) {terms : Finset Term}
    (hcovers : ∀ x, k.1.size ≤ x → x < r.program.size → ∃ u ∈ terms, Reordered (r.term x) u) :
    r.program.size ≤ k.1.size + ∑ u ∈ terms, u.copiesBound k.1.size := by
  have hsubset : Finset.range r.program.size ⊆ Finset.range k.1.size ∪ terms.biUnion r.copies := by
    intro x hx
    have hlt := Finset.mem_range.1 hx
    rcases Nat.lt_or_ge x k.1.size with hold | hnew
    · exact Finset.mem_union_left _ (Finset.mem_range.2 hold)
    · obtain ⟨u, hu, hle⟩ := hcovers x hnew hlt
      exact Finset.mem_union_right _ (Finset.mem_biUnion.2 ⟨u, hu, mem_copies.2 ⟨hlt, hle⟩⟩)
  calc r.program.size
    _ = (Finset.range r.program.size).card := (Finset.card_range _).symm
    _ ≤ (Finset.range k.1.size ∪ terms.biUnion r.copies).card := Finset.card_le_card hsubset
    _ ≤ (Finset.range k.1.size).card + (terms.biUnion r.copies).card := Finset.card_union_le _ _
    _ ≤ k.1.size + ∑ u ∈ terms, (r.copies u).card :=
      Nat.add_le_add (Nat.le_of_eq (Finset.card_range _)) Finset.card_biUnion_le
    _ ≤ k.1.size + ∑ u ∈ terms, u.copiesBound k.1.size :=
      Nat.add_le_add_left (Finset.sum_le_sum fun u _ => h.card_copies_le hr u) _

end Expansion.Interned

end ProcessCalculus
