import ProcessCalculus.Proofs.Program.Guardedness

/-!
# The search for unguarded processes

The search marks processes. Marks that are there when a search starts stay, and a search fails only at a reference
that leads to no node, which is marked as being under search from then on. If all that is under search at the start
leads to the process searched, then final marks are right: a process is marked as unguarded exactly if an infinite
path of unguarded edges starts from it. For a process whose search meets one that is still under search is on a
cycle with it, and a process is found to be guarded only after all that it leads to.

* `Guardedness.ends_visit`: what one search does to the marks.
* `Guardedness.ends_unguardedAmong`: what the searches from a list of processes answer.
* `Guardedness.unguarded_eq_nil`: in a program whose processes have ranks, no name is unguarded.
-/

namespace ProcessCalculus

open Relation

namespace Guardedness

variable {p : Program} {depth : Nat} {id x : ProcessId} {mark : Mark} {marks marks' marks'' : Marks}

/-- The marks of the first table are in the second one as well. -/
def Marks.Kept (marks marks' : Marks) : Prop :=
  ∀ (x : ProcessId) (mark : Mark), marks[x]? = some mark → marks'[x]? = some mark

namespace Marks.Kept

theorem refl (marks : Marks) : marks.Kept marks :=
  fun _ _ h => h

theorem trans (h : marks.Kept marks') (h' : marks'.Kept marks'') : marks.Kept marks'' :=
  fun x mark hx => h' x mark (h x mark hx)

theorem insert (hnew : marks[id]? = none) (mark : Mark) : marks.Kept (marks.insert id mark) := by
  intro x mark' hx
  have hne : id ≠ x := by
    rintro rfl
    simp [hnew] at hx
  rw [Table.getElem?_insert, if_neg hne]
  exact hx

theorem eq_none (h : marks.Kept marks') (hx : marks'[x]? = none) : marks[x]? = none := by
  cases hm : marks[x]? with
  | none => rfl
  | some mark => simp [h x mark hm] at hx

end Marks.Kept

/-- The process is marked. -/
def Marks.Knows (marks : Marks) (x : ProcessId) : Prop :=
  ∃ mark, marks[x]? = some mark

theorem Marks.Knows.kept (h : marks.Knows x) (hk : marks.Kept marks') : marks'.Knows x :=
  h.imp fun mark => hk x mark

theorem Marks.knows_of_contains (h : marks.contains x = true) : marks.Knows x := by
  rw [Std.TreeMap.contains_eq_isSome_getElem?] at h
  exact Option.isSome_iff_exists.1 h

theorem Marks.eq_none_of_not_contains (h : ¬ marks.contains x = true) : marks[x]? = none := by
  rwa [Std.TreeMap.contains_eq_isSome_getElem?, Option.not_isSome_iff_eq_none] at h

/-- How many processes of the program are not marked. A search marks one more on each level, so this bounds how deep
it can still go. -/
def unmarked (p : Program) (marks : Marks) : Nat :=
  ((Finset.range p.size).filter fun x => marks[x]? = none).card

theorem unmarked_le_size (p : Program) (marks : Marks) : unmarked p marks ≤ p.size :=
  (Finset.card_filter_le _ _).trans (Nat.le_of_eq (Finset.card_range _))

theorem unmarked_le (h : marks.Kept marks') : unmarked p marks' ≤ unmarked p marks := by
  apply Finset.card_le_card
  intro x hx
  rw [Finset.mem_filter] at hx ⊢
  exact ⟨hx.1, h.eq_none hx.2⟩

theorem unmarked_insert_lt (hid : id < p.size) (hnew : marks[id]? = none) (mark : Mark) :
    unmarked p (marks.insert id mark) < unmarked p marks := by
  apply Finset.card_lt_card
  rw [Finset.ssubset_iff_of_subset]
  · refine ⟨id, Finset.mem_filter.2 ⟨Finset.mem_range.2 hid, hnew⟩, fun h => ?_⟩
    have hid := (Finset.mem_filter.1 h).2
    rw [Table.getElem?_insert, if_pos rfl] at hid
    cases hid
  · intro x hx
    rw [Finset.mem_filter] at hx ⊢
    exact ⟨hx.1, (Marks.Kept.insert hnew mark).eq_none hx.2⟩

/-- Final marks are right. -/
structure Right (p : Program) (marks : Marks) : Prop where
  guarded {x : ProcessId} : marks[x]? = some Mark.guarded → ¬ p.Unguarded x
  unguarded {x : ProcessId} : marks[x]? = some Mark.unguarded → p.Unguarded x

theorem Right.empty (p : Program) : Right p ∅ where
  guarded {x} h := by simp at h
  unguarded {x} h := by simp at h

/-- Everything under search leads to the process. -/
def Led (p : Program) (marks : Marks) (id : ProcessId) : Prop :=
  ∀ x : ProcessId, marks[x]? = some Mark.searching → ReflTransGen p.UnguardedEdge x id

/-- What a search from a process does to the marks. -/
structure Searched (p : Program) (id : ProcessId) (marks marks' : Marks) : Prop where
  knows : marks'.Knows id
  kept : marks.Kept marks'
  searching {x : ProcessId} : marks'[x]? = some Mark.searching → marks[x]? = some Mark.searching
  right : Led p marks id → Right p marks → Right p marks'

/-- How a search from a process fails: it meets a reference to no node, which was not marked before and now is. -/
structure Missed (p : Program) (id : ProcessId) (marks : Marks) (fault : Fault) (marks' : Marks) : Prop where
  kept : marks.Kept marks'
  exists_missing : ∃ x, fault = .missingProcess x ∧ ReflTransGen p.UnguardedEdge id x ∧ p.node? x = none ∧
    marks[x]? = none ∧ marks'.Knows x

/-- What holds while the processes are searched to which `id` leads without an action. -/
private structure Searching (p : Program) (id : ProcessId) (marks marks' : Marks) : Prop where
  kept : Marks.Kept (marks.insert id .searching) marks'
  searching {x : ProcessId} : marks'[x]? = some Mark.searching → x = id ∨ marks[x]? = some Mark.searching
  right : Led p marks id → Right p marks → Right p marks'

namespace Searching

private theorem start (p : Program) (id : ProcessId) (marks : Marks) :
    Searching p id marks (marks.insert id .searching) where
  kept := .refl _
  searching {x} hx := by
    rw [Table.getElem?_insert] at hx
    by_cases hid : id = x
    · exact .inl hid.symm
    · rw [if_neg hid] at hx
      exact .inr hx
  right _ hright := by
    have hother {x : ProcessId} {mark : Mark} (hm : mark ≠ .searching)
        (hx : (marks.insert id Mark.searching)[x]? = some mark) : marks[x]? = some mark := by
      rw [Table.getElem?_insert] at hx
      by_cases hid : id = x
      · rw [if_pos hid] at hx
        exact absurd (Option.some.inj hx).symm hm
      · rwa [if_neg hid] at hx
    exact ⟨fun hx => hright.guarded (hother nofun hx), fun hx => hright.unguarded (hother nofun hx)⟩

/-- A child was searched: what was under search then, `id` included, leads to the child. -/
private theorem searched {c : ProcessId} (h : Searching p id marks marks') (he : p.UnguardedEdge id c)
    (hc : Searched p c marks' marks'') : Searching p id marks marks'' where
  kept := h.kept.trans hc.kept
  searching hx := h.searching (hc.searching hx)
  right hled hright := by
    apply hc.right _ (h.right hled hright)
    intro x hx
    rcases h.searching hx with rfl | hx
    · exact .single he
    · exact (hled x hx).tail he

private theorem kept_before (h : Searching p id marks marks') (hnew : marks[id]? = none) : marks.Kept marks' :=
  (Marks.Kept.insert hnew .searching).trans h.kept

/-- The final mark of `id` is right, once all its children are marked. -/
private theorem right_mark {node : Node ProcessId} (h : Searching p id marks marks')
    (hnode : p.node? id = some node) (hknows : ∀ c ∈ node.unguardedChildren, marks'.Knows c)
    (hled : Led p marks id) (hright : Right p marks) :
    node.unguardedChildren.any marks'.suspects = true ↔ p.Unguarded id := by
  have hright' := h.right hled hright
  rw [List.any_eq_true]
  constructor
  · rintro ⟨c, hc, hsuspect⟩
    have he : p.UnguardedEdge id c := ⟨node, hnode, hc⟩
    simp only [Marks.suspects, Bool.or_eq_true, beq_iff_eq] at hsuspect
    rcases hsuspect with hc | hc
    · -- the child is still under search, so it leads back to `id`
      rcases h.searching hc with rfl | hc
      · exact .of_cycle (.single he)
      · exact .of_cycle (.head' he (hled c hc))
    · exact .of_edge he (hright'.unguarded hc)
  · intro hunguarded
    obtain ⟨c, ⟨node', hnode', hc⟩, hu⟩ := hunguarded.exists_edge
    obtain rfl : node = node' := Option.some.inj (hnode.symm.trans hnode')
    refine ⟨c, hc, ?_⟩
    obtain ⟨mark, hmark⟩ := hknows c hc
    cases mark with
    | searching => simp [Marks.suspects, hmark]
    | unguarded => simp [Marks.suspects, hmark]
    | guarded => exact absurd hu (hright'.guarded hmark)

private theorem finish {node : Node ProcessId} (h : Searching p id marks marks') (hnew : marks[id]? = none)
    (hnode : p.node? id = some node) (hknows : ∀ c ∈ node.unguardedChildren, marks'.Knows c) :
    Searched p id marks
      (marks'.insert id (if node.unguardedChildren.any marks'.suspects then .unguarded else .guarded)) where
  knows := ⟨_, by rw [Table.getElem?_insert, if_pos rfl]⟩
  kept := by
    intro x mark hx
    have hne : id ≠ x := by
      rintro rfl
      simp [hnew] at hx
    rw [Table.getElem?_insert, if_neg hne]
    exact h.kept_before hnew x mark hx
  searching {x} hx := by
    rw [Table.getElem?_insert] at hx
    by_cases hid : id = x
    · rw [if_pos hid] at hx
      split at hx <;> cases hx
    · rw [if_neg hid] at hx
      exact (h.searching hx).resolve_left (Ne.symm hid)
  right hled hright := by
    have hmark := h.right_mark hnode hknows hled hright
    have hright' := h.right hled hright
    constructor
    · intro x hx
      rw [Table.getElem?_insert] at hx
      by_cases hid : id = x
      · rw [if_pos hid] at hx
        rw [← hid, ← hmark]
        intro hany
        rw [hany] at hx
        cases hx
      · rw [if_neg hid] at hx
        exact hright'.guarded hx
    · intro x hx
      rw [Table.getElem?_insert] at hx
      by_cases hid : id = x
      · rw [if_pos hid] at hx
        rw [← hid, ← hmark]
        by_contra hany
        rw [if_neg hany] at hx
        cases hx
      · rw [if_neg hid] at hx
        exact hright'.unguarded hx

end Searching

/-- A child's search has failed, and with it that of the process. -/
private theorem Missed.of_child {fault : Fault} {c : ProcessId} (hnew : marks[id]? = none)
    (hk : Searching p id marks marks') (he : p.UnguardedEdge id c) (h : Missed p c marks' fault marks'') :
    Missed p id marks fault marks'' := by
  obtain ⟨hkept, x, hfault, hreach, hnode, hx, hknows⟩ := h
  have hbefore := hk.kept_before hnew
  exact ⟨hbefore.trans hkept, x, hfault, .head he hreach, hnode, hbefore.eq_none hx, hknows⟩

/-- The search from a process. By induction on the depth, which is greater than the number of processes that are not
marked. -/
theorem ends_visit (hd : unmarked p marks < depth) :
    Ends (visit p depth id) marks (fun _ marks' => Searched p id marks marks') (Missed p id marks) := by
  induction depth generalizing id marks with
  | zero => exact absurd hd (Nat.not_lt_zero _)
  | succ depth ih =>
    unfold visit
    rw [ends_bind, ends_get]
    split
    · rename_i hc
      exact ⟨Marks.knows_of_contains hc, .refl marks, fun h => h, fun _ h => h⟩
    · rename_i hc
      have hnew := Marks.eq_none_of_not_contains hc
      rw [ends_bind, ends_modify]
      split
      · rename_i hnode
        refine ⟨.insert hnew _, id, rfl, .refl, hnode, hnew, .searching, ?_⟩
        rw [Table.getElem?_insert, if_pos rfl]
      · rename_i node hnode
        have hless := unmarked_insert_lt (Program.lt_size_of_node? hnode) hnew .searching
        rw [ends_bind]
        refine (Ends.forM (w := fun marks' => marks') (I := Searching p id marks) (P := Marks.Knows)
          (fun c hc marks' hm => ?_) (.start p id marks)).mono ?_ fun _ _ h => h
        · have he : p.UnguardedEdge id c := ⟨node, hnode, hc⟩
          have hd' : unmarked p marks' < depth := by
            have := unmarked_le (p := p) hm.kept
            omega
          refine (ih hd').mono ?_ fun _ _ h => h.of_child hnew hm he
          exact fun _ marks'' h => ⟨marks'', rfl, hm.searched he h, h.knows, fun x hx => hx.kept h.kept⟩
        · rintro _ _ ⟨marks', rfl, hm, hknows, -⟩
          rw [ends_bind, ends_get]
          exact hm.finish hnew hnode hknows

/-- Nothing is under search. -/
def Idle (marks : Marks) : Prop :=
  ∀ x : ProcessId, marks[x]? ≠ some Mark.searching

theorem Idle.led (h : Idle marks) : Led p marks id :=
  fun x hx => absurd hx (h x)

/-- Whether a process was found to be unguarded. -/
def Marks.condemns (marks : Marks) (x : ProcessId) : Bool :=
  marks[x]? == some .unguarded

theorem Marks.condemns_kept (h : marks.Knows x) (hk : marks.Kept marks') : marks'.condemns x = marks.condemns x := by
  obtain ⟨mark, hx⟩ := h
  rw [condemns, condemns, hx, hk x mark hx]

/-- Where nothing is under search and final marks are right, the marks of known processes are final. -/
theorem Right.condemns_iff (h : Right p marks) (hidle : Idle marks) (hx : marks.Knows x) :
    marks.condemns x = true ↔ p.Unguarded x := by
  obtain ⟨mark, hmark⟩ := hx
  rw [Marks.condemns, hmark]
  cases mark with
  | searching => exact absurd hmark (hidle x)
  | guarded => simp [h.guarded hmark]
  | unguarded => simp [h.unguarded hmark]

/-- What the searches from a list of processes do to the marks, and what they answer. -/
structure Answered (p : Program) (ids : List ProcessId) (marks : Marks) (answer : List ProcessId)
    (marks' : Marks) : Prop where
  kept : marks.Kept marks'
  knows {x : ProcessId} : x ∈ ids → marks'.Knows x
  answer_eq : answer = ids.filter marks'.condemns
  right : Idle marks → Right p marks → Idle marks' ∧ Right p marks'

theorem ends_unguardedAmong (ids : List ProcessId) :
    Ends (unguardedAmong p ids) marks (Answered p ids marks)
      fun fault marks' => ∃ id ∈ ids, Missed p id marks fault marks' := by
  induction ids generalizing marks with
  | nil => exact ⟨.refl marks, nofun, rfl, fun hi hr => ⟨hi, hr⟩⟩
  | cons id ids ih =>
    have hd : unmarked p marks < p.depthBound := Nat.lt_succ_of_le (unmarked_le_size p marks)
    unfold unguardedAmong isUnguarded
    rw [ends_bind, ends_bind]
    refine (ends_visit hd).mono ?_ fun fault marks' h => ⟨id, List.mem_cons_self, h⟩
    intro _ marks₁ hone
    rw [ends_bind, ends_get, ends_pure, ends_bind]
    refine ih.mono ?_ ?_
    · intro rest marks₂ hrest
      have hsame : marks₂.condemns id = marks₁.condemns id := Marks.condemns_kept hone.knows hrest.kept
      refine ⟨hone.kept.trans hrest.kept, ?_, ?_, ?_⟩
      · intro x hx
        rcases List.mem_cons.1 hx with rfl | hx
        · exact hone.knows.kept hrest.kept
        · exact hrest.knows hx
      · rw [List.filter_cons, hsame, hrest.answer_eq]
        rfl
      · intro hidle hright
        exact hrest.right (fun x hx => hidle x (hone.searching hx)) (hone.right hidle.led hright)
    · rintro fault marks₂ ⟨id', hid', hkept, x, hfault, hreach, hnode, hx, hknows⟩
      exact ⟨id', List.mem_cons_of_mem _ hid', hone.kept.trans hkept, x, hfault, hreach, hnode,
        hone.kept.eq_none hx, hknows⟩

/-- In a program whose references lead to nodes, the unguarded ones among the names are found. -/
theorem unguarded_eq_filter [DecidablePred p.Unguarded] (hp : p.Closed) (hnamed : ∀ id ∈ p.named, id < p.size) :
    p.unguarded = .ok (p.named.filter (p.Unguarded ·)) := by
  have hends : Ends (unguardedAmong p p.named) (∅ : Marks) (Answered p p.named ∅) fun _ _ => False := by
    refine (ends_unguardedAmong p.named).mono (fun _ _ h => h) ?_
    rintro fault marks' ⟨id, hid, -, x, -, hreach, hnode, -, -⟩
    -- nothing is missing behind a name
    have hx : x < p.size := by
      clear hnode
      induction hreach with
      | refl => exact hnamed id hid
      | tail _ he ih => exact hp.unguardedChild_lt he
    exact absurd hx (Nat.not_lt_of_le (Program.node?_eq_none_iff.1 hnode))
  obtain ⟨ids, marks, hok, h⟩ := hends.exists_ok
  obtain ⟨hidle, hright⟩ := h.right (fun x => by simp) (.empty p)
  have hids : ids = p.named.filter (p.Unguarded ·) := by
    rw [h.answer_eq]
    refine List.filter_congr fun id hid => ?_
    rw [Bool.eq_iff_iff, decide_eq_true_iff]
    exact hright.condemns_iff hidle (h.knows hid)
  rw [Program.unguarded, check, hok, hids]

theorem exists_unguarded_eq (hp : p.Closed) (hnamed : ∀ id ∈ p.named, id < p.size) :
    ∃ ids, p.unguarded = .ok ids ∧ ids.Sublist p.named ∧ ∀ id, id ∈ ids ↔ id ∈ p.named ∧ p.Unguarded id := by
  classical
  refine ⟨_, unguarded_eq_filter hp hnamed, List.filter_sublist, fun id => ?_⟩
  rw [List.mem_filter, decide_eq_true_iff]

/-- If the search for unguarded names finds none, there is none. -/
theorem not_unguarded_of_unguarded_eq (hp : p.WellFormed) (hnone : p.unguarded = .ok []) {name : String}
    {id : ProcessId} (hl : p.lookup? name = some id) : ¬ p.Unguarded id := by
  obtain ⟨ids, hok, -, hiff⟩ := exists_unguarded_eq hp.closed fun id hid => hp.lt_of_mem_named hid
  obtain rfl : [] = ids := Except.ok.inj (hnone.symm.trans hok)
  exact fun hu => List.not_mem_nil ((hiff id).2 ⟨Program.mem_named.2 ⟨name, hl⟩, hu⟩)

/-- The search for unguarded names finds none in a program whose processes have ranks. -/
theorem unguarded_eq_nil (hp : p.WellFormed) {rank : ProcessId → Nat} (hr : p.Ranked rank) :
    p.unguarded = .ok [] := by
  obtain ⟨ids, hok, -, hiff⟩ := exists_unguarded_eq hp.closed fun id hid => hp.lt_of_mem_named hid
  have hnil : ids = [] := by
    apply List.eq_nil_iff_forall_not_mem.2
    intro id hid
    obtain ⟨hnamed, hunguarded⟩ := (hiff id).1 hid
    obtain ⟨x, hreach, hcycle⟩ := hunguarded.exists_cycle hp.closed (hp.lt_of_mem_named hnamed)
    exact Nat.lt_irrefl _ (hr.path hcycle)
  rw [hok, hnil]

end Guardedness

end ProcessCalculus
