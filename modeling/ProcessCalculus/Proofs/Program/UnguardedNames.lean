import ProcessCalculus.Proofs.Program.GuardednessSearch

/-!
# Unguarded names

However a program was put together, if all its references lead to nodes then the unguarded names that are reported
are exactly those from which an infinite path of unguarded edges starts, each once and in the order of their names.

* `Assembled`: programs with any nodes whatever, whose names were entered by mentioning them.
* `Program.unguarded_names_eq`: what the search for unguarded names reports.
-/

namespace ProcessCalculus

/-- The program comes from the empty one by adding nodes, replacing nodes and mentioning names, with any identifiers in
the nodes. This is so after any steps of building, of the passes and of expansion. -/
inductive Assembled : Program → Prop
  | empty : Assembled ∅
  | add {p : Program} (h : Assembled p) (node : Node ProcessId) : Assembled (p.add node).2
  | write {p : Program} (h : Assembled p) (id : ProcessId) (node : Node ProcessId) : Assembled (p.write id node)
  | mention {p : Program} (h : Assembled p) (name : String) : Assembled (p.mention name).2

namespace Assembled

variable {p : Program}

theorem define (h : Assembled p) (name : String) (body : ProcessId) : Assembled (after (Program.define name body) p) := by
  rcases p.after_define name body with heq | heq | ⟨-, id, own, -, heq⟩ <;> rw [heq]
  · exact h
  · exact h.mention name
  · exact (h.mention name).write id _

theorem lookup?_lt (h : Assembled p) {name : String} {id : ProcessId} (hl : p.lookup? name = some id) : id < p.size := by
  induction h with
  | empty => simp at hl
  | add _ node ih =>
    rw [Program.size_add]
    exact Nat.lt_succ_of_lt (ih hl)
  | write _ other node ih =>
    rw [Program.size_write]
    exact ih hl
  | @mention p _ other ih =>
    cases hm : p.lookup? other with
    | some known =>
      rw [Program.mention_of_known hm] at hl ⊢
      exact ih hl
    | none =>
      obtain ⟨-, hsize, -, hlookup⟩ := Program.mention_of_new hm
      rw [hlookup] at hl
      rw [hsize]
      by_cases hname : name = other
      · rw [if_pos hname] at hl
        cases hl
        exact Nat.lt_succ_self _
      · rw [if_neg hname] at hl
        exact Nat.lt_succ_of_lt (ih hl)

/-- A name that is entered gets an identifier that none had before, so two names never share one. -/
theorem lookup?_inj (h : Assembled p) {name name' : String} {id : ProcessId} (hl : p.lookup? name = some id)
    (hl' : p.lookup? name' = some id) : name = name' := by
  induction h with
  | empty => simp at hl
  | add _ node ih => exact ih hl hl'
  | write _ other node ih => exact ih hl hl'
  | @mention p h other ih =>
    cases hm : p.lookup? other with
    | some known =>
      rw [Program.mention_of_known hm] at hl hl'
      exact ih hl hl'
    | none =>
      obtain ⟨-, -, -, hlookup⟩ := Program.mention_of_new hm
      rw [hlookup] at hl hl'
      by_cases hname : name = other <;> by_cases hname' : name' = other
      · rw [hname, hname']
      · rw [if_pos hname] at hl
        rw [if_neg hname'] at hl'
        have hlt := h.lookup?_lt hl'
        cases hl
        exact absurd hlt (Nat.lt_irrefl _)
      · rw [if_neg hname] at hl
        rw [if_pos hname'] at hl'
        have hlt := h.lookup?_lt hl
        cases hl'
        exact absurd hlt (Nat.lt_irrefl _)
      · rw [if_neg hname] at hl
        rw [if_neg hname'] at hl'
        exact ih hl hl'

end Assembled

namespace Program

/-- Some of the named processes, in their order: they have strictly increasing names. -/
theorem exists_names_of_sublist {p : Program} {ids : List ProcessId} (h : ids.Sublist p.named) :
    ∃ names : List String, names.Pairwise (· < ·) ∧ List.Forall₂ (fun name id => p.lookup? name = some id) names ids := by
  obtain ⟨entries, hentries, rfl⟩ := List.sublist_map_iff.1 h
  refine ⟨entries.map Prod.fst, ?_, ?_⟩
  · rw [List.pairwise_map]
    have hsorted := (Std.TreeMap.ordered_keys_toList (t := p.names)).sublist hentries
    exact hsorted.imp fun hlt => compareOfLessAndEq_eq_lt.1 hlt
  · rw [List.forall₂_map_left_iff, List.forall₂_map_right_iff, List.forall₂_same]
    intro entry hmem
    exact Std.TreeMap.mem_toList_iff_getElem?_eq_some.1 (hentries.subset hmem)

/-- A well-formed program has a list of unguarded names, in their order. -/
theorem WellFormed.exists_unguarded {p : Program} (h : p.WellFormed) :
    ∃ (names : List String) (ids : List ProcessId), p.unguarded = .ok ids ∧ names.Pairwise (· < ·) ∧
      List.Forall₂ (fun name id => p.lookup? name = some id) names ids := by
  obtain ⟨ids, hok, hsub, -⟩ := Guardedness.exists_unguarded_eq h.closed fun id hid => h.lt_of_mem_named hid
  obtain ⟨names, hsorted, hnames⟩ := exists_names_of_sublist hsub
  exact ⟨names, ids, hok, hsorted, hnames⟩

/-- The unguarded names of a program are reported in the order of their names and without repetitions, and they are the
names from which an infinite path of unguarded edges starts. -/
theorem unguarded_names_eq {p : Program} (hp : Assembled p) (hclosed : p.Closed) :
    ∃ ids, p.unguarded = .ok ids ∧ ids.Nodup ∧
      (∃ names : List String, names.Pairwise (· < ·) ∧
        List.Forall₂ (fun name id => p.lookup? name = some id) names ids) ∧
      ∀ id, id ∈ ids ↔ (∃ name, p.lookup? name = some id) ∧
        ∃ path : Nat → ProcessId, path 0 = id ∧ ∀ k, p.Unfolds (path k) (path (k + 1)) := by
  have hnamed : ∀ id ∈ p.named, id < p.size := by
    intro id hid
    obtain ⟨name, hl⟩ := mem_named.1 hid
    exact hp.lookup?_lt hl
  obtain ⟨ids, hok, hsub, hiff⟩ := Guardedness.exists_unguarded_eq hclosed hnamed
  obtain ⟨names, hsorted, hnames⟩ := exists_names_of_sublist hsub
  refine ⟨ids, hok, ?_, ⟨names, hsorted, hnames⟩, fun id => ?_⟩
  · -- different names have different processes
    clear hsub hiff hok
    induction hnames with
    | nil => exact List.nodup_nil
    | @cons name id names ids hl hnames ih =>
      obtain ⟨hless, hsorted⟩ := List.pairwise_cons.1 hsorted
      refine List.nodup_cons.2 ⟨fun hid => ?_, ih hsorted⟩
      obtain ⟨name', hmem, hl'⟩ := (forall₂_exists hnames).2 id hid
      have hsame := hp.lookup?_inj hl hl'
      exact absurd (hsame ▸ hless name' hmem) (String.lt_irrefl name')
  · rw [hiff, mem_named, unfolds_eq]
    rfl

/-- The definitions `P = R + S`, `Q = 1.P` and `S = X`, where `X` is the parallel composition of itself with itself, and
`R` has no definition. -/
private def selfOperand : Program :=
  let p := (Program.mention ∅ "S").2
  let p := (p.add (.parallel 1 1)).2
  let p := after (define "S" 1) p
  let p := (p.mention "P").2
  let p := (p.add (.sum 4 0)).2
  let p := after (define "P" 3) p
  let p := (p.mention "R").2
  let p := (p.add (.delay 1 2)).2
  after (define "Q" 5) p

/-- Only `P` and `S` unfold for ever. -/
theorem unguarded_names_eq_selfOperand :
    Assembled selfOperand ∧ selfOperand.Closed ∧ selfOperand.unguarded = .ok [2, 0] ∧
      ∃ path : Nat → ProcessId, path 0 = 2 ∧ ∀ k, selfOperand.Unfolds (path k) (path (k + 1)) := by
  have hs : Assembled _ := ((Assembled.empty.mention "S").add (.parallel 1 1)).define "S" 1
  have hpr : Assembled _ := (((hs.mention "P").add (.sum 4 0)).define "P" 3).mention "R"
  have hp : Assembled selfOperand := (hpr.add (.delay 1 2)).define "Q" 5
  have hclosed : selfOperand.Closed := by decide +kernel
  obtain ⟨ids, hok, -, -, hiff⟩ := unguarded_names_eq hp hclosed
  have hids : ids = [2, 0] := by
    have heval : selfOperand.unguarded.toOption = some [2, 0] := by decide +kernel
    rw [hok] at heval
    exact Option.some.inj heval
  subst hids
  exact ⟨hp, hclosed, hok, ((hiff 2).1 (by simp)).2⟩

end Program

end ProcessCalculus
