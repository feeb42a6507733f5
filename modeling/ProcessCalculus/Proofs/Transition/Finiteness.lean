import ProcessCalculus.Proofs.Program.GuardednessSearch
import ProcessCalculus.Proofs.Transition.Exploring
import ProcessCalculus.Proofs.Transition.Steady
import ProcessCalculus.Proofs.Transition.Totality
import ProcessCalculus.Transition.Exploration

/-!
# Finite state spaces

If definitions are guarded and the term of a process reaches only finitely many terms, then only finitely many processes
are found from it, whatever the order of the calls. Hence the breadth-first walk ends with all of them.

* `Expansion.bounded_of_total`: finitely many processes add finitely many nodes, in any order of calls.
* `Exploration.Walking`: the invariant of the breadth-first walk.
* `Exploration.walk_covers`: what the walk visits if processes are bounded.
* `Expansion.exploration_finite`: the bounds for a process, and the end of the walk.
-/

namespace ProcessCalculus

open Relation Term

namespace Expansion

variable {k k' k'' : Program × Expansion} {id root : ProcessId}

/-- A call changes nothing for a process whose transitions are known, and for one that is not in the program. -/
theorem after_successors_of_idle (h : (∃ ts, k.2.known[id]? = some ts) ∨ k.1.size ≤ id) :
    after (successors id) k = k := by
  obtain ⟨p, e⟩ := k
  have hpos : 0 < p.expansionBound := Nat.add_pos_right p.size (by decide)
  obtain ⟨depth, hdepth⟩ := Nat.exists_eq_add_one.2 hpos
  refine Ends.after (P := (· = (p, e))) ?_
  unfold successors
  rw [ends_bind, ends_program, ends_bind, hdepth, expand, ends_bind, ends_notes]
  split
  · rfl
  · rename_i hknown
    rw [ends_bind, ends_program, ends_bind]
    rcases h with ⟨ts, hts⟩ | hsize
    · exact absurd (Std.TreeMap.contains_eq_isSome_getElem?.trans (by rw [hts]; rfl)) hknown
    · rw [ends_ofExcept_error (Program.components_eq_none (Program.node?_eq_none_iff.2 hsize))]

/-- A process with some property is asked for its transitions. -/
def Asks (P : ProcessId → Prop) (k k' : Program × Expansion) : Prop :=
  ∃ id, P id ∧ k' = after (successors id) k

open Classical in
/-- The processes below a bound whose transitions are not known. -/
private noncomputable def unknown (n : Nat) (k : Program × Expansion) : Finset ProcessId :=
  {x ∈ Finset.range n | k.2.known[x]? = none}

private theorem mem_unknown {n : Nat} : id ∈ unknown n k ↔ id < n ∧ k.2.known[id]? = none := by
  simp [unknown]

/-- A call that finds transitions leaves fewer processes unknown. -/
private theorem card_unknown_lt {n : Nat} {ts : Transitions} (hid : id ∈ unknown n k)
    (hok : successors id k = .ok ts k') : (unknown n k').card < (unknown n k).card := by
  obtain ⟨hkept, hts⟩ := (ends_successors_kept id k).of_ok hok
  have hsubset : unknown n k' ⊆ unknown n k := by
    intro x hx
    obtain ⟨hlt, hnone⟩ := mem_unknown.1 hx
    refine mem_unknown.2 ⟨hlt, Option.eq_none_iff_forall_ne_some.2 fun us hus => ?_⟩
    cases hnone.symm.trans (hkept x us hus)
  refine Finset.card_lt_card ((Finset.ssubset_iff_of_subset hsubset).2 ⟨id, hid, fun hid' => ?_⟩)
  cases (mem_unknown.1 hid').2.symm.trans hts

/-- The program has a bound for all calls for processes below `n`, in any order. -/
def Bounded (n : Nat) (k : Program × Expansion) : Prop :=
  ∃ bound, ∀ k', ReflTransGen (Asks (· < n)) k k' → k'.1.size ≤ bound

/-- There is a bound if there is one after each call that changes anything. -/
theorem Bounded.of_calls {n : Nat}
    (h : ∀ id, id < n → after (successors id) k = k ∨ Bounded n (after (successors id) k)) : Bounded n k := by
  have hbound (id : ProcessId) : ∃ bound, id < n → after (successors id) k = k ∨
      ∀ k', ReflTransGen (Asks (· < n)) (after (successors id) k) k' → k'.1.size ≤ bound := by
    by_cases hid : id < n
    · rcases h id hid with hsame | ⟨bound, hbound⟩
      · exact ⟨0, fun _ => .inl hsame⟩
      · exact ⟨bound, fun _ => .inr hbound⟩
    · exact ⟨0, fun h => absurd h hid⟩
  choose bounds hbounds using hbound
  refine ⟨max k.1.size ((Finset.range n).sup bounds), fun k' hrun => ?_⟩
  -- by induction on the run, up to the first call that changes anything
  have hfrom (k₁ : Program × Expansion) (hrun : ReflTransGen (Asks (· < n)) k₁ k') (hk : k₁ = k) :
      k'.1.size ≤ max k.1.size ((Finset.range n).sup bounds) := by
    induction hrun using ReflTransGen.head_induction_on with
    | refl =>
      rw [hk]
      exact Nat.le_max_left _ _
    | head hask hrest ih =>
      obtain ⟨id, hid, rfl⟩ := hask
      rw [hk] at hrest ih
      rcases hbounds id hid with hsame | hbound
      · exact ih hsame
      · calc k'.1.size
          _ ≤ bounds id := hbound k' hrest
          _ ≤ (Finset.range n).sup bounds := Finset.le_sup (Finset.mem_range.2 hid)
          _ ≤ max k.1.size ((Finset.range n).sup bounds) := Nat.le_max_right _ _
  exact hfrom k hrun rfl

/-- There is a bound if all calls succeed for processes of the program. By induction on the number of processes that are
not known yet: a call for another one changes nothing. -/
theorem bounded_of_total {n : Nat} (htotal : ∀ k', ExpansionSteps k k' → ∀ id, id < k'.1.size →
    ∃ ts k'', successors id k' = .ok ts k'') : Bounded n k := by
  induction hm : (unknown n k).card using Nat.strongRecOn generalizing k with
  | ind m ih =>
    refine .of_calls fun id hid => ?_
    by_cases hidle : (∃ ts, k.2.known[id]? = some ts) ∨ k.1.size ≤ id
    · exact .inl (after_successors_of_idle hidle)
    · obtain ⟨hunknown, hlt⟩ := not_or.1 hidle
      obtain ⟨ts, k₁, hok⟩ := htotal k .refl id (Nat.lt_of_not_le hlt)
      have hafter : after (successors id) k = k₁ := by rw [after, hok]
      have hnone : k.2.known[id]? = none := Option.eq_none_iff_forall_ne_some.2 fun us hus => hunknown ⟨us, hus⟩
      have hfewer := hm ▸ card_unknown_lt (mem_unknown.2 ⟨hid, hnone⟩) hok
      exact .inr (hafter ▸ ih _ hfewer (fun k' h => htotal k' (.head ⟨id, hafter.symm⟩ h)) rfl)

/-- Runs consist of calls for what is found. -/
theorem Exploring.asks {ids : List ProcessId} (h : Exploring root k k' ids) :
    ReflTransGen (Asks (Found root k)) k k' := by
  induction h with
  | start => exact .refl
  | answered h hid hok ih => exact ih.tail ⟨_, ⟨_, _, h, hid⟩, by rw [after, hok]⟩
  | failed h hid herror ih => exact ih.tail ⟨_, ⟨_, _, h, hid⟩, by rw [after, herror]⟩

theorem steps_of_asks {P : ProcessId → Prop} (h : ReflTransGen (Asks P) k k') : ExpansionSteps k k' :=
  ReflTransGen.mono (fun _ _ ⟨id, _, hk⟩ => ⟨id, hk⟩) _ _ h

end Expansion

namespace Pipeline

theorem successors_of_ok (pipeline : Pipeline) {p p' : Program} {id : ProcessId} {ts : Transitions}
    {notes : Notes pipeline.stages} (hok : generator pipeline.stages id (p, pipeline.notes) = .ok ts (p', notes)) :
    pipeline.successors p id = (.ok ts, p', { pipeline with notes }) := by
  unfold successors run
  dsimp only
  rw [hok]

end Pipeline

namespace Exploration

variable {targets queue visited : List ProcessId} {seen : ProcessSet} {x root id : ProcessId}
  {k k' : Program × Expansion} {p p' : Program} {e e' : Expansion} {ts : Transitions}

/-- New targets are those that were not seen. -/
theorem mem_newTargets : x ∈ (newTargets targets seen).1 ↔ x ∈ targets ∧ x ∉ seen := by
  induction targets generalizing seen with
  | nil => simp [newTargets]
  | cons id targets ih =>
    unfold newTargets
    split <;> rename_i hid <;> rw [TreapSet.contains_iff_mem] at hid
    · grind
    · simp only [List.mem_cons, ih, TreapSet.mem_insert]
      grind

/-- All targets have been seen then. -/
theorem mem_seen_newTargets : x ∈ (newTargets targets seen).2 ↔ x ∈ seen ∨ x ∈ targets := by
  induction targets generalizing seen with
  | nil => simp [newTargets]
  | cons id targets ih =>
    unfold newTargets
    split <;> rename_i hid <;> rw [TreapSet.contains_iff_mem] at hid
    · grind
    · simp only [ih, TreapSet.mem_insert, List.mem_cons]
      grind

theorem nodup_newTargets : (newTargets targets seen).1.Nodup := by
  induction targets generalizing seen with
  | nil => exact List.nodup_nil
  | cons id targets ih =>
    unfold newTargets
    split
    · exact ih
    · refine List.nodup_cons.2 ⟨fun hmem => ?_, ih⟩
      exact (mem_newTargets.1 hmem).2 (TreapSet.mem_insert.2 (.inl rfl))

/-- What holds between two visits of the walk from `root`: what was visited and what is in the queue are the processes
found so far, each of them once. -/
structure Walking (root : ProcessId) (k : Program × Expansion) (visited queue : List ProcessId) (seen : ProcessSet)
    (k' : Program × Expansion) : Prop where
  exploring : ∃ ids, Expansion.Exploring root k k' ids ∧ ∀ x, x ∈ ids ↔ x ∈ visited ++ queue
  mem_seen {x : ProcessId} : x ∈ seen ↔ x ∈ visited ++ queue
  nodup : (visited ++ queue).Nodup

namespace Walking

theorem start (root : ProcessId) (k : Program × Expansion) :
    Walking root k [] [root] (TreapSet.ofList [root]) k where
  exploring := ⟨[root], .start, fun _ => Iff.rfl⟩
  mem_seen := TreapSet.mem_ofList
  nodup := List.nodup_singleton root

theorem visit (h : Walking root k visited (id :: queue) seen k') {k'' : Program × Expansion}
    (hok : Expansion.successors id k' = .ok ts k'') :
    let new := newTargets (ts.toList.map Transition.target) seen
    Walking root k (visited ++ [id]) (queue ++ new.1) new.2 k'' := by
  intro new
  obtain ⟨ids, hrun, hids⟩ := h.exploring
  have hmem (x : ProcessId) : x ∈ visited ++ [id] ++ (queue ++ new.1) ↔
      x ∈ visited ++ id :: queue ∨ x ∈ ts.toList.map Transition.target := by
    rw [show visited ++ [id] ++ (queue ++ new.1) = visited ++ id :: queue ++ new.1 by simp, List.mem_append,
      mem_newTargets, h.mem_seen]
    grind
  refine ⟨⟨_, hrun.answered ((hids id).2 (by simp)) hok, fun x => ?_⟩, fun {x} => ?_, ?_⟩
  · rw [hmem, List.mem_append, hids]
  · rw [hmem, mem_seen_newTargets, h.mem_seen]
  · rw [show visited ++ [id] ++ (queue ++ new.1) = visited ++ id :: queue ++ new.1 by simp]
    refine List.nodup_append'.2 ⟨h.nodup, nodup_newTargets, fun x hx hnew => ?_⟩
    exact (mem_newTargets.1 hnew).2 (h.mem_seen.2 hx)

/-- What is found below a bound is no more than that. -/
theorem length_le {bound : Nat} (hlt : ∀ k' ids, Expansion.Exploring root k k' ids → ∀ id ∈ ids, id < bound)
    (h : Walking root k visited queue seen k') : visited.length + queue.length ≤ bound := by
  obtain ⟨ids, hrun, hids⟩ := h.exploring
  rw [← List.length_append]
  exact length_le_of_nodup h.nodup fun x hx => hlt _ _ hrun x ((hids x).2 hx)

end Walking

/-- If the processes of all runs are below a bound and have transitions, the walk makes no more visits than that. If its
limit is not below the bound, it ends only when all targets were visited. -/
theorem walk_covers (limit : Nat) {bound : Nat}
    (hlt : ∀ k' ids, Expansion.Exploring root k k' ids → ∀ id ∈ ids, id < bound)
    (hok : ∀ k' ids, Expansion.Exploring root k k' ids → ∀ id ∈ ids, ∃ ts k'', Expansion.successors id k' = .ok ts k'')
    (h : Walking root k visited queue seen (p, e)) :
    let visits := (walk limit queue seen p ⟨[], e⟩).1
    let all := visited ++ visits.map Visit.id
    all.length ≤ bound ∧ (bound ≤ visited.length + limit → (∀ x ∈ queue, x ∈ all) ∧
      ∀ v ∈ visits, ∃ ts, v.answer = .ok ts ∧ ∀ t ∈ ts, t.target ∈ all) := by
  induction limit generalizing visited queue seen p e with
  | zero =>
    have hle := h.length_le hlt
    simp only [walk, List.map_nil, List.append_nil, List.not_mem_nil, false_imp_iff, implies_true, and_true]
    refine ⟨by omega, fun hlimit x hx => ?_⟩
    have hpos := List.length_pos_of_mem hx
    omega
  | succ limit ih =>
    cases queue with
    | nil =>
      have hle := h.length_le hlt
      simpa [walk] using hle
    | cons id queue =>
      obtain ⟨ids, hrun, hids⟩ := h.exploring
      obtain ⟨ts, ⟨p', e'⟩, hanswer⟩ := hok _ _ hrun id ((hids id).2 (by simp))
      let new := newTargets (ts.toList.map Transition.target) seen
      let rest := walk limit (queue ++ new.1) new.2 p' ⟨[], e'⟩
      let visit : Visit := ⟨id, p'.text id, .ok ts⟩
      have hwalk : walk (limit + 1) (id :: queue) seen p ⟨[], e⟩ = (visit :: rest.1, rest.2) := by
        rw [walk, Pipeline.successors_of_ok ⟨[], e⟩ hanswer]
      have hvisited : visited ++ (visit :: rest.1).map Visit.id = visited ++ [id] ++ rest.1.map Visit.id := by
        simp [visit]
      obtain ⟨hle, hclosed⟩ := ih (h.visit hanswer)
      rw [hwalk]
      dsimp only
      rw [hvisited]
      refine ⟨hle, fun hlimit => ?_⟩
      obtain ⟨hqueue, hvisits⟩ := hclosed (by rw [List.length_append, List.length_singleton]; omega)
      refine ⟨fun x hx => ?_, fun v hv => ?_⟩
      · rcases List.mem_cons.1 hx with rfl | hx
        · simp
        · exact hqueue x (List.mem_append_left _ hx)
      · rcases List.mem_cons.1 hv with rfl | hv
        · refine ⟨ts, rfl, fun t ht => ?_⟩
          -- a target that was seen before was visited, or it is in the queue
          by_cases hseen : t.target ∈ seen
          · rcases List.mem_append.1 (h.mem_seen.1 hseen) with hold | hnext
            · simp [hold]
            · rcases List.mem_cons.1 hnext with hself | hnext
              · simp [hself]
              · exact hqueue _ (List.mem_append_left _ hnext)
          · exact hqueue _ (List.mem_append_right _ (mem_newTargets.2 ⟨List.mem_map_of_mem ht, hseen⟩))
        · exact hvisits v hv

/-- The walk from a process: if its limit allows, it ends with all targets visited. -/
theorem start_covers {bound : Nat} (hlt : ∀ k' ids, Expansion.Exploring root (p, e) k' ids → ∀ id ∈ ids, id < bound)
    (hok : ∀ k' ids, Expansion.Exploring root (p, e) k' ids → ∀ id ∈ ids,
      ∃ ts k'', Expansion.successors id k' = .ok ts k'') (limit : Nat) :
    let visits := (start ⟨[], e⟩ p root limit).1
    visits.length ≤ bound ∧ (bound ≤ limit → (∃ v ∈ visits, v.id = root) ∧
      ∀ v ∈ visits, ∃ ts, v.answer = .ok ts ∧ ∀ x ∈ ts, ∃ w ∈ visits, w.id = x.target) := by
  intro visits
  obtain ⟨hlength, hclosed⟩ := walk_covers limit hlt hok (.start root (p, e))
  have hmem {x : ProcessId} (hx : x ∈ [] ++ visits.map Visit.id) : ∃ w ∈ visits, w.id = x := List.mem_map.1 hx
  rw [List.nil_append, List.length_map] at hlength
  rw [List.length_nil, Nat.zero_add] at hclosed
  refine ⟨hlength, fun hlimit => ?_⟩
  obtain ⟨hqueue, hvisits⟩ := hclosed hlimit
  refine ⟨hmem (hqueue root (List.mem_singleton_self root)), fun v hv => ?_⟩
  obtain ⟨ts, hanswer, htargets⟩ := hvisits v hv
  exact ⟨ts, hanswer, fun x hx => hmem (htargets x hx)⟩

end Exploration

namespace Expansion

/-- Let a program be built, shared and expanded, let all its names be defined and guarded, and let a process denote a
term that reaches only finitely many terms, up to the order of operands. Then only finitely many processes are found
from it by calls for what was found before, all of which succeed. The program is bounded for all calls for these
processes, in any order. The breadth-first walk visits no more of them than there are, and if its limit allows, it ends
with all targets visited. -/
theorem exploration_finite {k : Program × Expansion} (hk : ExpansionHistory k) (hdef : k.1.undefinedNames = [])
    (hguard : k.1.unguarded = .ok []) {root : ProcessId} {t : Term} (ht : k.1.Denotes root t)
    (hfin : FinitelyMany (Reaches k.1.Defines t)) :
    ∃ bound, (∀ id, Found root k id → id < bound) ∧
      (∀ k' ids, Exploring root k k' ids → ∀ id ∈ ids, ∃ ts k'', successors id k' = .ok ts k'') ∧
      (∀ k', ReflTransGen (Asks (Found root k)) k k' → k'.1.size ≤ bound) ∧
      ∀ limit, let visits := (Exploration.start ⟨[], k.2⟩ k.1 root limit).1
        visits.length ≤ bound ∧ (bound ≤ limit → (∃ v ∈ visits, v.id = root) ∧
          ∀ v ∈ visits, ∃ ts, v.answer = .ok ts ∧ ∀ x ∈ ts, ∃ w ∈ visits, w.id = x.target) := by
  obtain ⟨p, e⟩ := k
  obtain ⟨r, defs, rfl, hs, hsettled⟩ := hk.exists_settled
  have hw := hs.models.wellFormed
  have hroot : root < r.program.size := by
    obtain ⟨node, hnode⟩ := ht.exists_node
    exact Program.lt_size_of_node? hnode
  have hunguarded (name : String) (id : ProcessId) (hl : r.program.lookup? name = some id) :
      ¬ r.program.Unguarded id := Guardedness.not_unguarded_of_unguarded_eq hw hguard hl
  have hreached := hs.models.finitelyMany_reaches hroot ht hfin
  obtain ⟨found, hfound⟩ := Exploring.exists_bound hs hroot hunguarded hreached
  have htotal (k' : Program × Expansion) (hsteps : ExpansionSteps (r.program, e) k') (id : ProcessId)
      (hid : id < k'.1.size) : ∃ ts k'', successors id k' = .ok ts k'' :=
    exists_ok_of_steps hs hsettled (hw.undefinedNames_eq_nil_iff.1 hdef) hunguarded hsteps hid
  obtain ⟨size, hsize⟩ : Bounded found (r.program, e) := bounded_of_total htotal
  have hlt (k' : Program × Expansion) (ids : List ProcessId) (h : Exploring root (r.program, e) k' ids)
      (id : ProcessId) (hid : id ∈ ids) : id < found :=
    Nat.lt_of_lt_of_le ((hfound k' ids h).2 id hid) (hfound k' ids h).1
  have hok (k' : Program × Expansion) (ids : List ProcessId) (h : Exploring root (r.program, e) k' ids)
      (id : ProcessId) (hid : id ∈ ids) : ∃ ts k'', successors id k' = .ok ts k'' :=
    htotal k' (steps_of_asks h.asks) id ((hfound k' ids h).2 id hid)
  refine ⟨max found size, ?_, hok, fun k' h => ?_, fun limit => ?_⟩
  · rintro id ⟨k', ids, h, hid⟩
    exact Nat.lt_of_lt_of_le (hlt k' ids h id hid) (Nat.le_max_left _ _)
  · refine Nat.le_trans (hsize k' (ReflTransGen.mono ?_ _ _ h)) (Nat.le_max_right _ _)
    rintro k₁ k₂ ⟨id, ⟨k', ids, hrun, hid⟩, hask⟩
    exact ⟨id, hlt k' ids hrun id hid, hask⟩
  · obtain ⟨hlength, hclosed⟩ := Exploration.start_covers hlt hok limit
    exact ⟨Nat.le_trans hlength (Nat.le_max_left _ _), fun hlimit =>
      hclosed (Nat.le_trans (Nat.le_max_left _ _) hlimit)⟩

/-- The definition `P = a.P` and the term `P | 'a.0`. -/
private def loopBesideOutput : Program :=
  let p := (Program.mention ∅ "P").2
  let p := (p.add (.act (.visible "a" .input) 0)).2
  let p := after (Program.define "P" 1) p
  let p := (p.add .null).2
  let p := (p.add (.act (.visible "a" .output) 2)).2
  (p.add (.parallel 0 3)).2

private theorem built_loopBesideOutput : Built loopBesideOutput :=
  (((((ReflTransGen.refl.tail (.mention ∅ "P")).tail (.add rfl (by decide))).tail (.define _ "P" 1)).tail
    (.add rfl (by decide))).tail (.add rfl (by decide))).tail (.add rfl (by decide))

/-- The term reaches itself and `P | 0`, for which a node is added. -/
theorem exploration_finite_loopBesideOutput :
    let k : Program × Expansion := (loopBesideOutput, ∅)
    let t : Term := .parallel (.name "P") (.act (.visible "a" .output) .null)
    ExpansionHistory k ∧ k.1.undefinedNames = [] ∧ k.1.unguarded = .ok [] ∧ k.1.Denotes 4 t ∧
      FinitelyMany (Reaches k.1.Defines t) ∧ k.1.size < (after (successors 4) k).1.size ∧
        ∃ bound, ∀ k', ReflTransGen (Asks (Found 4 k)) k k' → k'.1.size ≤ bound := by
  intro k t
  have hk : ExpansionHistory k := .fresh (.of_built built_loopBesideOutput)
  have hdef : k.1.undefinedNames = [] := by decide +kernel
  have hguard : k.1.unguarded = .ok [] := by
    have heval : k.1.unguarded.toOption = some [] := by decide +kernel
    cases h : k.1.unguarded with
    | ok ids =>
      rw [h] at heval
      rw [Option.some.inj heval]
    | error fault =>
      rw [h] at heval
      cases heval
  have hname : k.1.Denotes 0 (.name "P") := .named (by decide +kernel : k.1.node? 0 = some (.named "P" (some 1)))
  have hloop : k.1.Denotes 1 (.act (.visible "a" .input) (.name "P")) :=
    .act (by decide +kernel : k.1.node? 1 = some (.act (.visible "a" .input) 0)) hname
  have hnull : k.1.Denotes 2 .null := .null (by decide +kernel)
  have hroot : k.1.Denotes 4 t :=
    .parallel (by decide +kernel : k.1.node? 4 = some (.parallel 0 3)) hname
      (.act (by decide +kernel : k.1.node? 3 = some (.act (.visible "a" .output) 2)) hnull)
  have hstep {a : Action} {u : Term} (h : Step k.1.Defines (.name "P") a u) : u = .name "P" := by
    cases h with
    | unfold definition h =>
      obtain ⟨id, body, hl, hnode, ht⟩ := definition
      obtain rfl : 0 = id := Option.some.inj ((by decide +kernel : k.1.lookup? "P" = some 0).symm.trans hl)
      cases (by decide +kernel : k.1.node? 0 = some (.named "P" (some 1))).symm.trans hnode
      obtain rfl := ht.unique hloop
      cases h
      rfl
  have hclosed : ∀ s ∈ [t, .parallel (.name "P") .null], ∀ a u, Step k.1.Defines s a u →
      u ∈ [t, .parallel (.name "P") .null] := by
    intro s hs a u h
    rcases List.mem_pair.1 hs with rfl | rfl
    · change Step _ (.parallel _ (.act _ _)) a u at h
      cases h with
      | left _ h => simp [hstep h, t]
      | right _ h =>
        cases h
        simp
      | @handshake _ _ _ _ _ p h h' =>
        cases p <;> cases h'
        simp [hstep h]
    · cases h with
      | left _ h => simp [hstep h]
      | right _ h => cases h
      | handshake _ h => cases h
  have hfin : FinitelyMany (Reaches k.1.Defines t) :=
    ⟨_, fun u hu => ⟨u, hu.mem_of_closed hclosed List.mem_cons_self, .refl u⟩⟩
  obtain ⟨bound, -, -, hbound, -⟩ := exploration_finite hk hdef hguard hroot hfin
  exact ⟨hk, hdef, hguard, hroot, hfin, by decide +kernel, bound, hbound⟩

end Expansion

end ProcessCalculus
