import ProcessCalculus.Proofs.Program.Walks

/-!
# The progress of a run of sharing

After any part of a run that started with fresh notes, what was visited is visited with all its subterms, and the rest
of the program is as it was.

* `Sharing.Progress`: what was visited, and which nodes are as in the beginning.
* `Sharing.Progress.move`: what each change preserves.
-/

namespace ProcessCalculus

open Relation Term

namespace Sharing

variable {S : ProcessId → Prop} {p₀ : Program} {k k' : Program × Sharing} {id c : ProcessId}

/-- The state of a run that started with the program `p₀`, and visits only processes of `S`. What was not visited is as
in `p₀`. What was visited is visited with all its subterms. -/
structure Progress (S : ProcessId → Prop) (p₀ : Program) (k : Program × Sharing) : Prop where
  mem {x c : ProcessId} : k.2.canonical? x = some c → S x
  node?_eq {x : ProcessId} : k.2.canonical? x = none → k.1.node? x = p₀.node? x
  exists_child {x y c : ProcessId} : k.2.canonical? x = some c → p₀.Child x y → ∃ d, k.2.canonical? y = some d

namespace Progress

theorem start (S : ProcessId → Prop) (p : Program) : Progress S p (p, ∅) where
  mem hc := by simp at hc
  node?_eq _ := rfl
  exists_child hc := by simp at hc

private theorem enter {p : Program} {s : Sharing} {node node' : Node ProcessId} (h : Progress S p₀ (p, s))
    (hmem : S id) (hnode : p.node? id = some node) (hnew : s.canonical? id = none)
    (hrel : node.Related (fun c d => s.canonical? c = some d) node') :
    Progress S p₀ (p.write id node', s.enter id node') := by
  have hmove : Move S (p, s) (p.write id node', s.enter id node') := .enter hmem hnode hnew hrel
  have hold {x : ProcessId} (hx : id ≠ x) : (s.enter id node').canonical? x = s.canonical? x := by
    rw [canonical?_enter, if_neg hx]
  constructor
  · intro x c hc
    by_cases hx : id = x
    · exact hx ▸ hmem
    · exact h.mem ((hold hx).symm.trans hc)
  · intro x hx
    exact (hmove.node?_eq hx).trans (h.node?_eq (canonical?_eq_none_of_moves (.single hmove) hx))
  · intro x y c hc hy
    by_cases hx : id = x
    · subst hx
      -- the node was the original one, and its subterms have been visited
      obtain ⟨node₀, hnode₀, hy⟩ := hy
      rw [← h.node?_eq hnew, hnode] at hnode₀
      cases hnode₀
      obtain ⟨d, -, hd⟩ := hrel.exists_of_mem_children_left hy
      exact ⟨d, hmove.canonical?_eq hd⟩
    · obtain ⟨d, hd⟩ := h.exists_child ((hold hx).symm.trans hc) hy
      exact ⟨d, hmove.canonical?_eq hd⟩

private theorem redirect {p : Program} {s : Sharing} {body body' : ProcessId} {name : String}
    (h : Progress S p₀ (p, s)) (hnode : p.node? id = some (.named name (some body))) (hid : s.canonical? id = some c)
    (hbody : s.canonical? body = some body') : Progress S p₀ (p.write id (.named name (some body')), s) := by
  have hmove : Move S (p, s) (p.write id (.named name (some body')), s) := .redirect hnode hid hbody
  constructor
  · exact h.mem
  · intro x hx
    exact (hmove.node?_eq hx).trans (h.node?_eq hx)
  · exact h.exists_child

/-- What one change preserves. -/
theorem move (h : Progress S p₀ k) (hmove : Move S k k') : Progress S p₀ k' := by
  cases hmove with
  | enter hmem hnode hnew hrel => exact h.enter hmem hnode hnew hrel
  | redirect hnode hid hbody => exact h.redirect hnode hid hbody

theorem moves (h : Progress S p₀ k) (hmoves : ReflTransGen (Move S) k k') : Progress S p₀ k' := by
  induction hmoves with
  | refl => exact h
  | tail _ hmove ih => exact ih.move hmove

end Progress

end Sharing

end ProcessCalculus
