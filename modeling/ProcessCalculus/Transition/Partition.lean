import ProcessCalculus.Transition.Classes

/-!
# Partitions

Disjoint classes of processes, each with its smallest member as representative. A process that no class lists is a class
of its own.

Classes stand in a vector, and a table has the position of the class for each process that is listed. Both are filled
side by side: a class is entered in the table before it is put at the end of the vector.

* `ClassTables.enter`: enters a position in the table, and answers with the one that it replaces.
* `ClassTables.ofLists`: vector and table for given classes, or the fault that a process is entered a second time.
* `ClassTables.agree_ofLists`: a process has the position of that class which lists it, and no position if none does.
* `Partition`: vector and table that agree, so that every lookup leads to a class.
-/

namespace ProcessCalculus

/-- Classes by their positions, and the position of the class for each process that is listed. -/
structure ClassTables where
  classes : Array ProcessClass := #[]
  positions : Std.TreeMap ProcessId Nat := ∅

namespace ClassTables

/-- Enters a position for a process, and answers with the one that was entered before. -/
def enter (t : ClassTables) (i : Nat) (id : ProcessId) : Option Nat × ClassTables :=
  (t.positions[id]?, { t with positions := t.positions.insert id i })

/-- Enters a position for a process that has none yet. -/
def enterNew (t : ClassTables) (i : Nat) (id : ProcessId) : Except Fault ClassTables :=
  match t.enter i id with
  | (some _, _) => .error (.overlappingClasses id)
  | (none, t) => .ok t

/-- The members of a class in increasing order, without repetitions. -/
def members (ids : List ProcessId) : List ProcessId :=
  ids.mergeSort.eraseReps

/-- Adds a class, unless it is empty. It must not meet the classes that are there. -/
def add (t : ClassTables) (ids : List ProcessId) : Except Fault ClassTables := do
  match members ids with
  | [] => return t
  | representative :: rest =>
    let t ← (representative :: rest).foldlM (enterNew · t.classes.size) t
    return { t with classes := t.classes.push ⟨representative, representative :: rest⟩ }

/-- The tables of given classes. -/
def ofLists (lists : List (List ProcessId)) : Except Fault ClassTables :=
  lists.foldlM add {}

/-- The class at the position of a process, or a class of its own if it has no position. Answers `none` if the position
leads out of the vector. -/
def classOf (t : ClassTables) (id : ProcessId) : Option ProcessClass :=
  match t.positions[id]? with
  | some i => t.classes[i]?
  | none => some (.singleton id)

/-- A process has a position if and only if the class at this position lists it. -/
def Agree (t : ClassTables) : Prop :=
  ∀ id i, t.positions[id]? = some i ↔ ∃ c : ProcessClass, t.classes[i]? = some c ∧ id ∈ c.members

variable {t t' : ClassTables} {i : Nat} {id : ProcessId} {ids : List ProcessId} {lists : List (List ProcessId)}

/-! ### Members -/

private theorem eraseReps_loop (a : ProcessId) (l front : List ProcessId) :
    List.eraseRepsBy.loop (· == ·) a l front = front.reverse ++ (a :: l).eraseReps := by
  show _ = front.reverse ++ List.eraseRepsBy.loop (· == ·) a l []
  induction l generalizing a front with
  | nil => simp [List.eraseRepsBy.loop]
  | cons b l ih =>
    unfold List.eraseRepsBy.loop
    split
    · exact ih a front
    · rw [ih b (a :: front), ih b [a]]
      simp

private theorem eraseReps_cons_cons (a b : ProcessId) (l : List ProcessId) :
    (a :: b :: l).eraseReps = if a = b then (a :: l).eraseReps else a :: (b :: l).eraseReps := by
  show List.eraseRepsBy.loop (· == ·) a (b :: l) [] = _
  unfold List.eraseRepsBy.loop
  split
  · rename_i hab
    rw [if_pos (eq_of_beq hab), eraseReps_loop]
    rfl
  · rename_i hab
    rw [if_neg (ne_of_beq_false hab), eraseReps_loop]
    rfl

private theorem mem_eraseReps {l : List ProcessId} : id ∈ l.eraseReps ↔ id ∈ l := by
  cases l with
  | nil => rfl
  | cons a l =>
    induction l generalizing a with
    | nil => rfl
    | cons b l ih =>
      rw [eraseReps_cons_cons]
      split
      · subst b
        rw [ih]
        simp
      · rw [List.mem_cons, ih, List.mem_cons (b := a)]

private theorem pairwise_eraseReps {l : List ProcessId} (h : l.Pairwise (· ≤ ·)) : l.eraseReps.Pairwise (· < ·) := by
  cases l with
  | nil => exact .nil
  | cons a l =>
    induction l generalizing a with
    | nil => exact List.pairwise_singleton _ a
    | cons b l ih =>
      obtain ⟨ha, hl⟩ := List.pairwise_cons.1 h
      obtain ⟨hb, htail⟩ := List.pairwise_cons.1 hl
      rw [eraseReps_cons_cons]
      split
      · exact ih a (List.pairwise_cons.2 ⟨fun c hc => ha c (List.mem_cons_of_mem b hc), htail⟩)
      · rename_i hab
        have hlt : a < b := Nat.lt_of_le_of_ne (ha b List.mem_cons_self) hab
        refine List.pairwise_cons.2 ⟨fun c hc => ?_, ih b hl⟩
        rcases List.mem_cons.1 (mem_eraseReps.1 hc) with rfl | hc
        · exact hlt
        · exact Nat.lt_of_lt_of_le hlt (hb c hc)

theorem mem_members : id ∈ members ids ↔ id ∈ ids := by
  rw [members, mem_eraseReps, (List.mergeSort_perm ids _).mem_iff]

theorem pairwise_members (ids : List ProcessId) : (members ids).Pairwise (· < ·) := by
  let le (a b : ProcessId) : Bool := decide (a ≤ b)
  have htrans (a b c : ProcessId) (hab : le a b = true) (hbc : le b c = true) : le a c = true :=
    decide_eq_true (Nat.le_trans (of_decide_eq_true hab) (of_decide_eq_true hbc))
  have htotal (a b : ProcessId) : (le a b || le b a) = true := by
    simpa [le] using Nat.le_total a b
  exact pairwise_eraseReps ((List.pairwise_mergeSort htrans htotal ids).imp of_decide_eq_true)

/-! ### Vector and table -/

/-- The members of a class are entered if none of them has a position. Otherwise the first one that has a position is
named. By induction on the members. -/
theorem foldlM_enterNew_cases (t : ClassTables) (i : Nat) (hnodup : ids.Nodup) :
    (∃ t', ids.foldlM (enterNew · i) t = .ok t' ∧ t'.classes = t.classes ∧ (∀ id ∈ ids, t.positions[id]? = none) ∧
        ∀ id, t'.positions[id]? = if id ∈ ids then some i else t.positions[id]?) ∨
      ∃ front x back, ids.foldlM (enterNew · i) t = .error (.overlappingClasses x) ∧ ids = front ++ x :: back ∧
        (∀ y ∈ front, t.positions[y]? = none) ∧ t.positions[x]?.isSome := by
  induction ids generalizing t with
  | nil => exact .inl ⟨t, rfl, rfl, nofun, fun id => by simp⟩
  | cons x ids ih =>
    obtain ⟨hx, hnodup⟩ := List.nodup_cons.1 hnodup
    rw [List.foldlM_cons]
    cases hposition : t.positions[x]? with
    | some j =>
      refine .inr ⟨[], x, ids, ?_, rfl, nofun, by rw [hposition]; rfl⟩
      rw [enterNew, enter, hposition]
      rfl
    | none =>
      let t₁ : ClassTables := { t with positions := t.positions.insert x i }
      have henter : t.enterNew i x = .ok t₁ := by
        rw [enterNew, enter, hposition]
      have hother {y : ProcessId} (hy : x ≠ y) : t₁.positions[y]? = t.positions[y]? := by
        rw [Std.TreeMap.getElem?_insert, if_neg fun heq => hy (Std.LawfulEqCmp.eq_of_compare heq)]
      have hself : t₁.positions[x]? = some i := by
        rw [Std.TreeMap.getElem?_insert, if_pos Std.ReflCmp.compare_self]
      rw [henter]
      rcases ih t₁ hnodup with ⟨t', hall, hclasses, hnone, hpositions⟩ | ⟨front, y, back, hall, hsplit, hnone, hy⟩
      · refine .inl ⟨t', hall, hclasses, fun y hy => ?_, fun y => ?_⟩
        · rcases List.mem_cons.1 hy with rfl | hy
          · exact hposition
          · rw [← hother fun hxy => hx (hxy ▸ hy)]
            exact hnone y hy
        · rw [hpositions]
          by_cases hxy : x = y
          · subst y
            rw [if_neg hx, if_pos List.mem_cons_self, hself]
          · simp only [List.mem_cons, hother hxy, Ne.symm hxy, false_or]
      · have hne {z : ProcessId} (hz : z ∈ ids) : x ≠ z := fun hxz => hx (hxz ▸ hz)
        refine .inr ⟨x :: front, y, back, hall, by rw [hsplit, List.cons_append], fun z hz => ?_, ?_⟩
        · rcases List.mem_cons.1 hz with rfl | hz
          · exact hposition
          · rw [← hother (hne (by simp [hsplit, hz]))]
            exact hnone z hz
        · rwa [← hother (hne (by simp [hsplit]))]

/-- What was added: nothing, or a class of new members at the end of the vector. -/
theorem add_eq_ok (hadd : t.add ids = .ok t') :
    members ids = [] ∧ t' = t ∨
      ∃ representative rest, members ids = representative :: rest ∧
        t'.classes = t.classes.push ⟨representative, representative :: rest⟩ ∧
        (∀ id ∈ members ids, t.positions[id]? = none) ∧
        ∀ id, t'.positions[id]? = if id ∈ members ids then some t.classes.size else t.positions[id]? := by
  have hnodup : (members ids).Nodup := (pairwise_members ids).imp Nat.ne_of_lt
  unfold add at hadd
  split at hadd
  · rename_i hnil
    cases hadd
    exact .inl ⟨hnil, rfl⟩
  · rename_i representative rest hcons
    rw [hcons] at hnodup ⊢
    rcases foldlM_enterNew_cases t t.classes.size hnodup with
      ⟨t₁, hall, hclasses, hnone, hpositions⟩ | ⟨front, x, back, hall, -⟩
    · rw [hall] at hadd
      cases hadd
      exact .inr ⟨representative, rest, rfl, by rw [hclasses], hnone, hpositions⟩
    · rw [hall] at hadd
      cases hadd

theorem agree_empty : Agree {} := by
  intro id i
  rw [Std.TreeMap.getElem?_emptyc]
  simp

theorem Agree.add (h : t.Agree) (hadd : t.add ids = .ok t') : t'.Agree := by
  rcases add_eq_ok hadd with ⟨-, rfl⟩ | ⟨representative, rest, hcons, hclasses, hnone, hpositions⟩
  · exact h
  · intro id i
    rw [hpositions, hclasses, Array.getElem?_push]
    by_cases hid : id ∈ members ids
    · -- no class that was there lists the process
      have hunlisted (c : ProcessClass) (hc : t.classes[i]? = some c) : id ∉ c.members := by
        intro hmem
        have hposition := (h id i).2 ⟨c, hc, hmem⟩
        rw [hnone id hid] at hposition
        cases hposition
      rw [if_pos hid]
      constructor
      · rintro ⟨⟩
        exact ⟨_, if_pos rfl, hcons ▸ hid⟩
      · rintro ⟨c, hc, hmem⟩
        split at hc
        · rename_i hi
          rw [hi]
        · exact absurd hmem (hunlisted c hc)
    · rw [if_neg hid, h id i]
      refine exists_congr fun c => and_congr_left fun hmem => ?_
      split
      · rename_i hi
        rw [hi, Array.getElem?_size]
        constructor
        · nofun
        · rintro ⟨⟩
          exact absurd (hcons ▸ hmem) hid
      · exact Iff.rfl

theorem Agree.foldlM_add (h : t.Agree) (hadds : lists.foldlM ClassTables.add t = .ok t') : t'.Agree := by
  induction lists generalizing t with
  | nil =>
    cases hadds
    exact h
  | cons ids lists ih =>
    rw [List.foldlM_cons] at hadds
    cases hadd : t.add ids with
    | error fault =>
      rw [hadd] at hadds
      cases hadds
    | ok t₁ =>
      rw [hadd] at hadds
      exact ih (h.add hadd) hadds

theorem agree_ofLists (h : ofLists lists = .ok t) : t.Agree :=
  agree_empty.foldlM_add h

/-- Every position leads to a class. -/
theorem Agree.isSome_classOf (h : t.Agree) (id : ProcessId) : (t.classOf id).isSome := by
  unfold classOf
  split
  · rename_i i hi
    obtain ⟨c, hc, -⟩ := (h id i).1 hi
    rw [hc]
    rfl
  · rfl

end ClassTables

/-- Disjoint classes of processes, in the order in which they were given. -/
structure Partition where
  tables : ClassTables
  agree : tables.Agree

namespace Partition

/-- The number of classes listed. -/
def size (p : Partition) : Nat :=
  p.tables.classes.size

def isEmpty (p : Partition) : Bool :=
  p.tables.classes.isEmpty

/-- The class of a process. -/
def classOf (p : Partition) (id : ProcessId) : ProcessClass :=
  (p.tables.classOf id).get (p.agree.isSome_classOf id)

/-- The partition with the given classes. -/
def ofLists (lists : List (List ProcessId)) : Except Fault Partition :=
  match h : ClassTables.ofLists lists with
  | .ok tables => .ok ⟨tables, ClassTables.agree_ofLists h⟩
  | .error fault => .error fault

end Partition

end ProcessCalculus
