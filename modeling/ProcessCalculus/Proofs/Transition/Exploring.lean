import ProcessCalculus.Proofs.Calculus.FiniteSteps
import ProcessCalculus.Proofs.Program.Guardedness
import ProcessCalculus.Proofs.Transition.Copies
import ProcessCalculus.Proofs.Transition.History

/-!
# Exploring from a process

A process is asked for its transitions, then any targets in the answers, in any order. All these processes stand for
terms that the term of the first one reaches by steps. The nodes that are added meanwhile stand for terms that are
derived from what is reached. So if only finitely many terms are reached, the program stays bounded.

* `Reading.Models.exists_opened`: unguarded edges lead to what the term of a process opens.
* `Expansion.Exploring`: the runs, with the processes found by each.
* `Expansion.Explored`: the invariant of a run.
* `Expansion.Exploring.exists_bound`: a bound on the program for all runs.
-/

namespace ProcessCalculus

open Relation Term

namespace Reading.Models

variable {defs : String → Term → Prop} {r : Reading} {x y : ProcessId}

/-- An unguarded edge leads to what the term opens. -/
theorem exists_opens (h : r.Models Reordered defs) (he : r.program.UnguardedEdge x y) :
    ∃ v, Opens defs (r.term x) v ∧ Reordered (r.term y) v := by
  obtain ⟨node, hnode, hy⟩ := he
  have hopens : ∃ v, Opens defs (node.term r.term) v ∧ Reordered (r.term y) v := by
    cases node with
    | null | act | delay => cases hy
    | named name body =>
      cases body with
      | none => cases hy
      | some body =>
        cases List.mem_singleton.1 hy
        obtain ⟨t, hdef, hle⟩ := h.exists_def hnode
        exact ⟨t, .unfold hdef, hle.symm⟩
    | sum left right =>
      simp only [Node.unguardedChildren, Node.children, List.mem_cons, List.not_mem_nil, or_false] at hy
      rcases hy with rfl | rfl
      · exact ⟨_, .sumLeft _ _, .refl _⟩
      · exact ⟨_, .sumRight _ _, .refl _⟩
    | parallel left right =>
      simp only [Node.unguardedChildren, Node.children, List.mem_cons, List.not_mem_nil, or_false] at hy
      rcases hy with rfl | rfl
      · exact ⟨_, .parallelLeft _ _, .refl _⟩
      · exact ⟨_, .parallelRight _ _, .refl _⟩
    | restrict c labels =>
      cases List.mem_singleton.1 hy
      exact ⟨_, .restrict _ labels, .refl _⟩
    | rename c renames =>
      cases List.mem_singleton.1 hy
      exact ⟨_, .rename _ renames, .refl _⟩
  obtain ⟨v, hv, hle⟩ := hopens
  obtain ⟨w, hw, hle'⟩ := hv.of_reordered (h.node_le hnode).symm
  exact ⟨w, hw, hle.trans hle'⟩

theorem exists_opened (h : r.Models Reordered defs) (hreach : ReflTransGen r.program.UnguardedEdge x y) :
    ∃ v, ReflTransGen (Opens defs) (r.term x) v ∧ Reordered (r.term y) v := by
  induction hreach with
  | refl => exact ⟨_, .refl, .refl _⟩
  | tail _ he ih =>
    obtain ⟨v, hv, hle⟩ := ih
    obtain ⟨w, hw, hle'⟩ := h.exists_opens he
    obtain ⟨w', hw', hle''⟩ := hw.of_reordered hle
    exact ⟨w', hv.tail hw', hle'.trans hle''⟩

/-- By the definitions of the reading, a process reaches finitely many terms if it does so by those of the program. -/
theorem finitelyMany_reaches (h : r.Models Reordered defs) (hx : x < r.program.size) {t : Term}
    (ht : r.program.Denotes x t) (hfin : FinitelyMany (Reaches r.program.Defines t)) :
    FinitelyMany (Reaches defs (r.term x)) := by
  obtain ⟨t', ht', hle⟩ := h.denotes Reordered.precongruence hx
  obtain rfl := ht.unique ht'
  exact hfin.mono fun u hu => hu.forth (h.isBisimulation Reordered.precongruence) hle

/-- A name has one definition, up to the order of operands. -/
theorem reordered_of_defs (h : r.Models Reordered defs) {n : String} {t t' : Term} (hdef : defs n t)
    (hdef' : defs n t') : Reordered t t' := by
  obtain ⟨id, hl⟩ := h.exists_name hdef
  obtain ⟨body, hnode⟩ := h.wellFormed.exists_named_of_lookup? hl
  obtain ⟨b, hb, hle⟩ := h.exists_body hnode hdef
  obtain ⟨b', hb', hle'⟩ := h.exists_body hnode hdef'
  obtain rfl : b = b' := Option.some.inj (hb.symm.trans hb')
  exact hle.trans hle'.symm

/-- If no name is unguarded, the definitions lower how deep names are unfolded. -/
theorem exists_unfolding (h : r.Models Reordered defs)
    (hguard : ∀ name id, r.program.lookup? name = some id → ¬ r.program.Unguarded id) :
    ∃ names : String → Nat, ∀ n t, defs n t → t.unfolding names < names n := by
  obtain ⟨m, hm, hexact⟩ := h.toValid.exists_exact
  obtain ⟨names, hnames⟩ := Program.exists_unfolding (hexact (· = ·) fun _ => rfl) hm hguard
  refine ⟨names, fun n t hdef => ?_⟩
  obtain ⟨t', hdef', hle⟩ := h.exists_defines Reordered.precongruence hdef
  rw [hle.unfolding_eq]
  exact hnames n t' hdef'

end Reading.Models

namespace Expansion

/-- A run that starts from `root`, and the processes that it has found. Any of these is asked for its transitions next,
also if it was asked before. -/
inductive Exploring (root : ProcessId) (k : Program × Expansion) : Program × Expansion → List ProcessId → Prop
  | start : Exploring root k k [root]
  | answered {k' k'' : Program × Expansion} {ids : List ProcessId} {id : ProcessId} {ts : Transitions}
      (h : Exploring root k k' ids) (hid : id ∈ ids) (hok : successors id k' = .ok ts k'') :
      Exploring root k k'' (ids ++ ts.toList.map Transition.target)
  | failed {k' k'' : Program × Expansion} {ids : List ProcessId} {id : ProcessId} {fault : Fault}
      (h : Exploring root k k' ids) (hid : id ∈ ids) (herror : successors id k' = .error fault k'') :
      Exploring root k k'' ids

/-- Some run that starts from `root` finds the process. -/
def Found (root : ProcessId) (k : Program × Expansion) (id : ProcessId) : Prop :=
  ∃ k' ids, Exploring root k k' ids ∧ id ∈ ids

/-- The terms that are derived from what a term reaches. -/
def Behind (defs : String → Term → Prop) (t u : Term) : Prop :=
  ∃ s, Reaches defs t s ∧ Derived defs s u

/-- What holds in a run that started from a process with the term `t`. -/
structure Explored (defs : String → Term → Prop) (t : Term) (r : Reading) (e : Expansion) (ids : List ProcessId)
    (r' : Reading) (e' : Expansion) : Prop where
  later : Later defs Reordered r e r' e'
  interned : Interned (r.program, e) (r'.program, e')
  lt {id : ProcessId} : id ∈ ids → id < r'.program.size
  reaches {id : ProcessId} : id ∈ ids → ∃ u, Reaches defs t u ∧ Reordered (r'.term id) u
  behind {x : ProcessId} : r.program.size ≤ x → x < r'.program.size → ∃ u, Behind defs t u ∧ Reordered (r'.term x) u

namespace Explored

variable {defs : String → Term → Prop} {t : Term} {r r' r'' : Reading} {e e' e'' : Expansion} {ids : List ProcessId}
  {id root : ProcessId} {ts : Transitions}

theorem start (hs : Sound defs Reordered r e) (hroot : root < r.program.size) :
    Explored defs (r.term root) r e [root] r e where
  later := .refl hs
  interned := .refl _
  lt hid := List.mem_singleton.1 hid ▸ hroot
  reaches hid := ⟨_, .refl, List.mem_singleton.1 hid ▸ .refl _⟩
  behind hge hlt := absurd hlt (Nat.not_lt_of_le hge)

/-- A new node is left by a step of a process to which unguarded edges lead from the one that was asked for. -/
theorem ask (h : Explored defs t r e ids r' e') (hid : id ∈ ids) (hl : Later defs Reordered r' e' r'' e'')
    (hg : Grown (ReflTransGen r'.program.UnguardedEdge id) (r'.program, e') (r''.program, e'')) :
    Explored defs t r e ids r'' e'' where
  later := h.later.trans hl
  interned := h.interned.trans hg.toInterned
  lt hx := Nat.lt_of_lt_of_le (h.lt hx) hl.2.1.size_le
  reaches {x} hx := by
    rw [hl.2.1.term_eq (h.lt hx)]
    exact h.reaches hx
  behind {x} hge hlt := by
    rcases Nat.lt_or_ge x r'.program.size with hx | hx
    · rw [hl.2.1.term_eq hx]
      exact h.behind hge hx
    · obtain ⟨y, ts, a, hts, hmem⟩ := hg.targeted hx hlt
      have hanswers := hl.1.answers hts
      rcases hg.known_or hts with hold | hreach
      · exact absurd ((h.later.1.answers hold).target_lt hmem) (Nat.not_lt_of_le hx)
      · have hb := Reordered.precongruence.isBisimulation_self defs
        obtain ⟨w, hw, hwx⟩ := hanswers.enumerates.sound ⟨_, hmem, rfl, rfl⟩
        obtain ⟨v, hv, hyv⟩ := hl.1.models.exists_opened (ReflTransGen.mono (fun _ _ => hl.2.1.edge) _ _ hreach)
        obtain ⟨w', hw', hww⟩ := hb.forth hyv hw
        rw [hl.2.1.term_eq (h.lt hid)] at hv
        -- the term reached derives what the one asked for does
        obtain ⟨s, hs, hids⟩ := h.reaches hid
        obtain ⟨u, hu, hwu⟩ := Derived.of_reordered hids ⟨v, a, hv, hw'⟩
        exact ⟨u, ⟨s, hs, hu⟩, (hwx.symm.trans hww).trans hwu⟩

/-- The targets in the answer are reached by one more step. -/
theorem found (h : Explored defs t r e ids r' e') (hid : id ∈ ids) (hts : e'.known[id]? = some ts) :
    Explored defs t r e (ids ++ ts.toList.map Transition.target) r' e' where
  later := h.later
  interned := h.interned
  lt hx := by
    rcases List.mem_append.1 hx with hx | hx
    · exact h.lt hx
    · obtain ⟨x, hmem, rfl⟩ := List.mem_map.1 hx
      exact (h.later.1.answers hts).target_lt hmem
  reaches hx := by
    rcases List.mem_append.1 hx with hx | hx
    · exact h.reaches hx
    · obtain ⟨x, hmem, rfl⟩ := List.mem_map.1 hx
      obtain ⟨w, hw, hwx⟩ := (h.later.1.answers hts).enumerates.sound ⟨x, hmem, rfl, rfl⟩
      obtain ⟨s, hs, hids⟩ := h.reaches hid
      obtain ⟨u, hu, hwu⟩ := (Reordered.precongruence.isBisimulation_self defs).forth hids hw
      exact ⟨u, hs.tail ⟨_, hu⟩, hwx.symm.trans hwu⟩
  behind := h.behind

end Explored

namespace Exploring

variable {defs : String → Term → Prop} {r : Reading} {e : Expansion} {root : ProcessId} {k k' : Program × Expansion}
  {ids : List ProcessId}

/-- By induction on the run. -/
theorem exists_explored (hs : Sound defs Reordered r e) (hroot : root < r.program.size)
    (h : Exploring root (r.program, e) k' ids) :
    ∃ r' e', k' = (r'.program, e') ∧ Explored defs (r.term root) r e ids r' e' := by
  induction h with
  | start => exact ⟨r, e, rfl, .start hs hroot⟩
  | @answered k' k'' ids id ts _ hid hok ih =>
    obtain ⟨r', e', rfl, hexp⟩ := ih
    obtain ⟨r'', e'', rfl, hl, hts⟩ := (ends_successors Reordered.precongruence hexp.later.1).of_ok hok
    have hg := grown_successors Reordered.precongruence hexp.later.1 id
    rw [after, hok] at hg
    exact ⟨r'', e'', rfl, (hexp.ask hid hl hg).found hid hts⟩
  | @failed k' k'' ids id fault _ hid herror ih =>
    obtain ⟨r', e', rfl, hexp⟩ := ih
    obtain ⟨⟨r'', e'', rfl, hl⟩, -⟩ := (ends_successors Reordered.precongruence hexp.later.1).of_error herror
    have hg := grown_successors Reordered.precongruence hexp.later.1 id
    rw [after, herror] at hg
    exact ⟨r'', e'', rfl, hexp.ask hid hl hg⟩

/-- If only finitely many terms are reached, the program is bounded in all runs. -/
theorem exists_bound (hs : Sound defs Reordered r e) (hroot : root < r.program.size)
    (hguard : ∀ name id, r.program.lookup? name = some id → ¬ r.program.Unguarded id)
    (hfin : FinitelyMany (Reaches defs (r.term root))) :
    ∃ bound, ∀ k' ids, Exploring root (r.program, e) k' ids → k'.1.size ≤ bound ∧ ∀ id ∈ ids, id < k'.1.size := by
  classical
  obtain ⟨names, hnames⟩ := hs.models.exists_unfolding hguard
  have hderived := finitelyMany_derived hnames fun _ _ _ => hs.models.reordered_of_defs
  obtain ⟨terms, hterms⟩ : FinitelyMany (Behind defs (r.term root)) := hfin.bind hderived Derived.of_reordered
  refine ⟨r.program.size + ∑ u ∈ terms.toFinset, u.copiesBound r.program.size, fun k' ids h => ?_⟩
  obtain ⟨r', e', rfl, hexp⟩ := h.exists_explored hs hroot
  refine ⟨?_, fun id => hexp.lt⟩
  refine hexp.interned.size_le_of_covers hexp.later.1.models.toValid fun x hge hlt => ?_
  obtain ⟨u, hu, hle⟩ := hexp.behind hge hlt
  obtain ⟨v, hv, huv⟩ := hterms u hu
  exact ⟨v, List.mem_toFinset.2 hv, hle.trans huv⟩

end Exploring

end Expansion

end ProcessCalculus
