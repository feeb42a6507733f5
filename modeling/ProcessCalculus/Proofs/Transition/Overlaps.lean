import ProcessCalculus.Proofs.Transition.Partition

/-!
# Overlapping classes

Classes are given as lists, in which members may be repeated and which may be empty. They are accepted exactly if no
process stands in two of the lists. A refusal names a process that shows why, and accepted classes are the lists,
sorted and without repetitions. A process has a position in the table exactly if one of the earlier lists has it, so a
position is found for a process that is entered again in another list, and for no other.

* `ClassTables.FirstOverlap`: the process that a refusal names.
* `ClassTables.add_cases`, `ClassTables.ofLists_cases`: one more class, and all classes.
* `Partition.ofLists_outcome`: what is accepted, what is refused, and the class of each process.
-/

namespace ProcessCalculus

namespace ClassTables

variable {t t' : ClassTables} {before lists : List (List ProcessId)} {ids : List ProcessId} {x : ProcessId}

/-- The process is the smallest one of a list that also stands in an earlier list, and no two of the earlier lists
overlap. -/
def FirstOverlap (lists : List (List ProcessId)) (x : ProcessId) : Prop :=
  ∃ before ids after, lists = before ++ ids :: after ∧ before.Pairwise List.Disjoint ∧ x ∈ ids ∧
    (∃ l ∈ before, x ∈ l) ∧ ∀ y ∈ ids, (∃ l ∈ before, y ∈ l) → x ≤ y

/-- Two of the lists overlap if there is a first overlap. -/
theorem FirstOverlap.not_pairwise (h : FirstOverlap lists x) : ¬ lists.Pairwise List.Disjoint := by
  obtain ⟨before, ids, after, rfl, -, hx, ⟨l, hl, hxl⟩, -⟩ := h
  intro hdisjoint
  exact (List.pairwise_append.1 hdisjoint).2.2 l hl ids List.mem_cons_self hxl hx

/-- Vector and table agree. They have the classes of the lists, which do not overlap, in increasing order. -/
structure Accepts (t : ClassTables) (lists : List (List ProcessId)) : Prop extends t.IsOf lists where
  agree : t.Agree
  disjoint_lists : lists.Pairwise List.Disjoint
  sorted {c : ProcessClass} : c ∈ t.classes → c.members.Pairwise (· < ·)

theorem accepts_empty : Accepts {} [] where
  toIsOf := isOf_empty
  agree := agree_empty
  disjoint_lists := .nil
  sorted h := absurd h (Array.not_mem_empty _)

/-- What has a position stands in one of the lists. -/
theorem Accepts.isSome_iff (h : t.Accepts before) : t.positions[x]?.isSome ↔ ∃ l ∈ before, x ∈ l := by
  have hshared := h.shared_iff (x := x) (y := x)
  simp only [and_self] at hshared
  rw [h.agree.isSome_iff, hshared]

theorem Accepts.add (h : t.Accepts before) (hdisjoint : ∀ l ∈ before, l.Disjoint ids) (hadd : t.add ids = .ok t') :
    t'.Accepts (before ++ [ids]) where
  toIsOf := h.toIsOf.add hadd
  agree := h.agree.add hadd
  disjoint_lists := by
    refine List.pairwise_append.2 ⟨h.disjoint_lists, List.pairwise_singleton _ _, fun l hl l' hl' => ?_⟩
    rw [List.mem_singleton.1 hl']
    exact hdisjoint l hl
  sorted {c} hc := by
    rcases add_eq_ok hadd with ⟨-, rfl⟩ | ⟨representative, rest, hcons, hclasses, -⟩
    · exact h.sorted hc
    · rcases Array.mem_push.1 (hclasses ▸ hc) with hc | rfl
      · exact h.sorted hc
      · exact hcons ▸ pairwise_members ids

/-- One more list is accepted if it meets none of the earlier ones. Otherwise its smallest member that stands in an
earlier one is named: members are entered in increasing order, and none of them twice. -/
theorem add_cases (h : t.Accepts before) (ids : List ProcessId) :
    (∃ t', t.add ids = .ok t' ∧ t'.Accepts (before ++ [ids])) ∨
      ∃ x, t.add ids = .error (.overlappingClasses x) ∧ x ∈ ids ∧ (∃ l ∈ before, x ∈ l) ∧
        ∀ y ∈ ids, (∃ l ∈ before, y ∈ l) → x ≤ y := by
  have hsorted := pairwise_members ids
  cases hcons : members ids with
  | nil =>
    have hadd : t.add ids = .ok t := by simp only [ClassTables.add, hcons]; rfl
    refine .inl ⟨t, hadd, h.add (fun l _ x _ hx => ?_) hadd⟩
    rw [← mem_members, hcons] at hx
    cases hx
  | cons representative rest =>
    rw [hcons] at hsorted
    rcases foldlM_enterNew_cases t t.classes.size (hsorted.imp Nat.ne_of_lt) with
      ⟨t₁, hall, -, hnone, -⟩ | ⟨front, x, back, hall, hsplit, hfront, hx⟩
    · have hadd : t.add ids = .ok { t₁ with classes := t₁.classes.push ⟨representative, representative :: rest⟩ } := by
        simp only [ClassTables.add, hcons, hall]
        rfl
      refine .inl ⟨_, hadd, h.add (fun l hl x hxl hx => ?_) hadd⟩
      have hposition := h.isSome_iff.2 ⟨l, hl, hxl⟩
      rw [← mem_members, hcons] at hx
      rw [hnone x hx] at hposition
      cases hposition
    · rw [hsplit] at hsorted
      have hmem {y : ProcessId} : y ∈ ids ↔ y ∈ front ++ x :: back := by
        rw [← mem_members, hcons, hsplit]
      refine .inr ⟨x, ?_, hmem.2 (by simp), h.isSome_iff.1 hx, fun y hy hlisted => ?_⟩
      · simp only [ClassTables.add, hcons, hall]
        rfl
      · rcases List.mem_append.1 (hmem.1 hy) with hy | hy
        · -- what was entered before is in no earlier list
          have hposition := h.isSome_iff.2 hlisted
          rw [hfront y hy] at hposition
          cases hposition
        · rcases List.mem_cons.1 hy with rfl | hy
          · exact Nat.le_refl _
          · have hback := (List.pairwise_append.1 hsorted).2.1
            exact Nat.le_of_lt ((List.pairwise_cons.1 hback).1 y hy)

/-- Lists are accepted, or there is a first overlap and its process is named. By induction on the lists that are still
to come. -/
theorem ofLists_cases (lists : List (List ProcessId)) :
    (∃ t, ofLists lists = .ok t ∧ t.Accepts lists) ∨
      ∃ x, ofLists lists = .error (.overlappingClasses x) ∧ FirstOverlap lists x := by
  have hadds {rest before : List (List ProcessId)} {t : ClassTables} (ht : t.Accepts before) :
      (∃ t', rest.foldlM ClassTables.add t = .ok t' ∧ t'.Accepts (before ++ rest)) ∨
        ∃ x, rest.foldlM ClassTables.add t = .error (.overlappingClasses x) ∧ FirstOverlap (before ++ rest) x := by
    induction rest generalizing before t with
    | nil =>
      rw [List.append_nil]
      exact .inl ⟨t, rfl, ht⟩
    | cons ids rest ih =>
      rw [List.foldlM_cons]
      rcases add_cases ht ids with ⟨t₁, hadd, ht₁⟩ | ⟨x, hadd, hx, hlisted, hleast⟩
      · rw [hadd, except_ok_bind, List.append_cons]
        exact ih ht₁
      · rw [hadd]
        exact .inr ⟨x, rfl, before, ids, rest, rfl, ht.disjoint_lists, hx, hlisted, hleast⟩
  exact hadds accepts_empty

end ClassTables

namespace Partition

open ClassTables (Accepts FirstOverlap)

section ClassOf

variable {part : Partition} {lists : List (List ProcessId)} {l : List ProcessId} {id m : ProcessId}
  (h : part.tables.Accepts lists)

include h

/-- A listed process has the class of its list. -/
theorem mem_classOf_iff (hl : l ∈ lists) (hid : id ∈ l) : m ∈ (part.classOf id).members ↔ m ∈ l := by
  rw [mem_classOf h.toIsOf]
  constructor
  · rintro (rfl | ⟨l', hl', hid', hm⟩)
    · exact hid
    · -- two lists with a common member are at one position
      obtain ⟨i, hi, rfl⟩ := List.mem_iff_getElem.1 hl
      obtain ⟨j, hj, rfl⟩ := List.mem_iff_getElem.1 hl'
      have hlists := List.pairwise_iff_getElem.1 h.disjoint_lists
      rcases Nat.lt_trichotomy i j with hij | rfl | hji
      · exact absurd hid' (hlists i j hi hj hij hid)
      · exact hm
      · exact absurd hid (hlists j i hj hi hji hid')
  · exact fun hm => .inr ⟨l, hl, hid, hm⟩

theorem classOf_eq_singleton (hid : ∀ l ∈ lists, id ∉ l) : part.classOf id = .singleton id := by
  refine classOf_of_unlisted fun c hc hmem => ?_
  obtain ⟨l, hl, hidl⟩ := h.isSome_iff.1 (part.agree.isSome_iff.2 ⟨c, hc, hmem⟩)
  exact hid l hl hidl

theorem pairwise_classOf (id : ProcessId) : (part.classOf id).members.Pairwise (· < ·) := by
  rcases part.classOf_cases id with ⟨hc, -⟩ | ⟨hone, -⟩
  · exact h.sorted hc
  · rw [hone]
    exact List.pairwise_singleton _ _

theorem representative_le_of_mem (hm : m ∈ (part.classOf id).members) : (part.classOf id).representative ≤ m := by
  rcases part.classOf_cases id with ⟨hc, -⟩ | ⟨hone, -⟩
  · exact h.representative_le hc hm
  · rw [hone] at hm ⊢
    exact Nat.le_of_eq (List.mem_singleton.1 hm).symm

end ClassOf

/-- Given classes are refused exactly if a process stands in the lists at two positions. The refusal then names, of the
first list that meets an earlier one, the smallest process that stands in an earlier one. Otherwise the class of a
listed process is its list, sorted and without repetitions, and any other process is a class of its own. Each class has
its smallest member as representative. Every process is in its own class, all members of a class have this class, and
different classes have no member in common. The vector of classes and the table of positions agree, and the class of a
process is what the lookup in them leads to. -/
theorem ofLists_outcome (lists : List (List ProcessId)) :
    ((∃ fault, ofLists lists = .error fault) ↔
      ∃ (i j : Nat) (l l' : List ProcessId) (x : ProcessId),
        i < j ∧ lists[i]? = some l ∧ lists[j]? = some l' ∧ x ∈ l ∧ x ∈ l') ∧
    (∀ fault, ofLists lists = .error fault → ∃ x, fault = .overlappingClasses x ∧ FirstOverlap lists x) ∧
    ∀ part, ofLists lists = .ok part →
      (∀ l ∈ lists, ∀ id ∈ l, ∀ m, m ∈ (part.classOf id).members ↔ m ∈ l) ∧
      (∀ id, (∀ l ∈ lists, id ∉ l) → part.classOf id = .singleton id) ∧
      (∀ id, (part.classOf id).members.Pairwise (· < ·)) ∧
      (∀ id, (part.classOf id).representative ∈ (part.classOf id).members ∧
        ∀ m ∈ (part.classOf id).members, (part.classOf id).representative ≤ m) ∧
      (∀ id, id ∈ (part.classOf id).members) ∧
      (∀ id, ∀ m ∈ (part.classOf id).members, part.classOf m = part.classOf id) ∧
      (∀ id id', part.classOf id ≠ part.classOf id' →
        (part.classOf id).members.Disjoint (part.classOf id').members) ∧
      ClassTables.ofLists lists = .ok part.tables ∧ part.tables.Agree ∧
      ∀ id, part.tables.classOf id = some (part.classOf id) := by
  have hoverlap : ¬ lists.Pairwise List.Disjoint ↔
      ∃ (i j : Nat) (l l' : List ProcessId) (x : ProcessId),
        i < j ∧ lists[i]? = some l ∧ lists[j]? = some l' ∧ x ∈ l ∧ x ∈ l' := by
    rw [List.pairwise_iff_getElem]
    unfold List.Disjoint
    push Not
    constructor
    · rintro ⟨i, j, hi, hj, hij, x, hx, hx', -⟩
      exact ⟨i, j, _, _, x, hij, List.getElem?_eq_getElem hi, List.getElem?_eq_getElem hj, hx, hx'⟩
    · rintro ⟨i, j, l, l', x, hij, hl, hl', hx, hx'⟩
      obtain ⟨hi, rfl⟩ := List.getElem?_eq_some_iff.1 hl
      obtain ⟨hj, rfl⟩ := List.getElem?_eq_some_iff.1 hl'
      exact ⟨i, j, hi, hj, hij, x, hx, hx', trivial⟩
  rw [← hoverlap]
  rcases ClassTables.ofLists_cases lists with ⟨t, hok, h⟩ | ⟨x, herror, h⟩
  · rw [ofLists_of_ok hok]
    refine ⟨⟨nofun, fun hnot => absurd h.disjoint_lists hnot⟩, nofun, ?_⟩
    intro part hpart
    obtain rfl : part = ⟨t, _⟩ := (Except.ok.inj hpart).symm
    refine ⟨fun l hl id hid m => mem_classOf_iff h hl hid, fun id => classOf_eq_singleton h, pairwise_classOf h,
      fun id => ⟨representative_mem_classOf h.toIsOf id, fun m => representative_le_of_mem h⟩, mem_classOf_self _,
      fun id m => classOf_eq_of_mem, fun id id' hne m hm hm' => hne ?_, hok, h.agree, tables_classOf _⟩
    rw [← classOf_eq_of_mem hm, ← classOf_eq_of_mem hm']
  · rw [ofLists_of_error herror]
    refine ⟨⟨fun _ => h.not_pairwise, fun _ => ⟨_, rfl⟩⟩, ?_, nofun⟩
    rintro _ ⟨⟩
    exact ⟨x, rfl, h⟩

/-- The third class meets the first one in 2 and 4, of which the smaller one is named. -/
example : ofLists [[4, 3, 2], [], [1, 4, 2, 4], [3]] = .error (.overlappingClasses 2) :=
  ofLists_of_error (by cbv)

end Partition

end ProcessCalculus
