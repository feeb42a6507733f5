import Mathlib.Data.List.Permutation
import ProcessCalculus.Transition.Partition
import ProcessCalculus.Proofs.Transition.Classes

/-!
# Transitions between the classes of a partition

The classes of a partition are disjoint, and each contains its representative. Processes with the same representative
are in the same class, so a stage that merges the classes of a partition answers for each process with the steps of its
own class, whichever member was asked for first.

* `ClassTables.IsOf`: the tables of given classes; `ClassTables.isOf_ofLists`, `Partition.isOf_ofLists`.
* `Partition.mem_classOf`, `Partition.classOf_eq_of_mem`, `Partition.classOf_eq_of_representative`: the class of a
  process.
* `Partition.IsRight`: what a response should be.
* `Partition.answers_isMerged`: all responses in a sequence of questions.
-/

namespace ProcessCalculus

open KnownTransitions Recorded

namespace ClassTables

/-- Classes with their smallest members as representatives. Two processes share a class if they share one of the
lists. -/
structure IsOf (t : ClassTables) (lists : List (List ProcessId)) : Prop where
  representative_mem {c : ProcessClass} : c ∈ t.classes → c.representative ∈ c.members
  representative_le {c : ProcessClass} {m : ProcessId} : c ∈ t.classes → m ∈ c.members → c.representative ≤ m
  shared_iff {x y : ProcessId} :
    (∃ c ∈ t.classes, x ∈ c.members ∧ y ∈ c.members) ↔ ∃ l ∈ lists, x ∈ l ∧ y ∈ l

variable {t t' : ClassTables} {before lists : List (List ProcessId)} {ids : List ProcessId} {x : ProcessId}

/-- What has a position is listed. -/
theorem Agree.isSome_iff (h : t.Agree) : t.positions[x]?.isSome ↔ ∃ c ∈ t.classes, x ∈ c.members := by
  simp only [Option.isSome_iff_exists, h x, Array.mem_iff_getElem?]
  constructor
  · rintro ⟨i, c, hc, hx⟩
    exact ⟨c, ⟨i, hc⟩, hx⟩
  · rintro ⟨c, ⟨i, hc⟩, hx⟩
    exact ⟨i, c, hc, hx⟩

theorem isOf_empty : IsOf {} [] where
  representative_mem h := absurd h (Array.not_mem_empty _)
  representative_le h := absurd h (Array.not_mem_empty _)
  shared_iff := by simp

/-- One more list is one more class, unless it has no members. -/
theorem IsOf.add (h : t.IsOf lists) (hadd : t.add ids = .ok t') : t'.IsOf (lists ++ [ids]) := by
  rcases add_eq_ok hadd with ⟨hnil, rfl⟩ | ⟨representative, rest, hcons, hclasses, -⟩
  · have hnone {x : ProcessId} : x ∉ ids := by
      rw [← mem_members, hnil]
      exact List.not_mem_nil
    refine ⟨h.representative_mem, h.representative_le, ?_⟩
    simp [h.shared_iff, or_and_right, exists_or, hnone]
  · have hmem {m : ProcessId} : m ∈ representative :: rest ↔ m ∈ ids := hcons ▸ mem_members
    have hsorted := pairwise_members ids
    rw [hcons, List.pairwise_cons] at hsorted
    constructor
    · intro c hc
      rcases Array.mem_push.1 (hclasses ▸ hc) with hc | rfl
      · exact h.representative_mem hc
      · exact List.mem_cons_self
    · intro c m hc hm
      rcases Array.mem_push.1 (hclasses ▸ hc) with hc | rfl
      · exact h.representative_le hc hm
      · rcases List.mem_cons.1 hm with rfl | hm
        · exact Nat.le_refl _
        · exact Nat.le_of_lt (hsorted.1 m hm)
    · intro x y
      simp only [hclasses, Array.mem_push, List.mem_append, List.mem_singleton, or_and_right, exists_or,
        exists_eq_left, h.shared_iff, hmem]

theorem IsOf.foldlM_add (h : t.IsOf before) (hadds : lists.foldlM ClassTables.add t = .ok t') :
    t'.IsOf (before ++ lists) := by
  induction lists generalizing before t with
  | nil =>
    cases hadds
    rwa [List.append_nil]
  | cons ids lists ih =>
    rw [List.foldlM_cons] at hadds
    cases hadd : t.add ids with
    | error fault =>
      rw [hadd] at hadds
      cases hadds
    | ok t₁ =>
      rw [hadd] at hadds
      rw [List.append_cons]
      exact ih (h.add hadd) hadds

/-- If classes are accepted, the tables are those of the classes. -/
theorem isOf_ofLists (h : ofLists lists = .ok t) : t.IsOf lists :=
  isOf_empty.foldlM_add h

end ClassTables

namespace Partition

variable {part : Partition} {lists : List (List ProcessId)} {id m x : ProcessId}

theorem ofLists_of_ok {t : ClassTables} (h : ClassTables.ofLists lists = .ok t) :
    ofLists lists = .ok ⟨t, ClassTables.agree_ofLists h⟩ := by
  unfold ofLists
  split
  · rename_i t' h'
    cases h'.symm.trans h
    rfl
  · rename_i fault h'
    cases h'.symm.trans h

theorem ofLists_of_error {fault : Fault} (h : ClassTables.ofLists lists = .error fault) :
    ofLists lists = .error fault := by
  unfold ofLists
  split
  · rename_i t' h'
    cases h'.symm.trans h
  · rename_i fault' h'
    cases h'.symm.trans h
    rfl

theorem tables_ofLists (h : ofLists lists = .ok part) : ClassTables.ofLists lists = .ok part.tables := by
  unfold ofLists at h
  split at h
  · rename_i t ht
    cases h
    exact ht
  · cases h

theorem isOf_ofLists (h : ofLists lists = .ok part) : part.tables.IsOf lists :=
  ClassTables.isOf_ofLists (tables_ofLists h)

/-! ### The class of a process -/

section ClassOf

/-- The lookup in the tables leads to the class. -/
theorem tables_classOf (part : Partition) (id : ProcessId) : part.tables.classOf id = some (part.classOf id) :=
  (Option.some_get _).symm

theorem classOf_of_unlisted (hid : ∀ c ∈ part.tables.classes, id ∉ c.members) : part.classOf id = .singleton id := by
  have hnone : part.tables.positions[id]? = none := by
    rw [← Option.not_isSome_iff_eq_none, part.agree.isSome_iff]
    rintro ⟨c, hc, hmem⟩
    exact hid c hc hmem
  have hclass : part.tables.classOf id = some (.singleton id) := by
    rw [ClassTables.classOf, hnone]
  exact Option.some.inj ((part.tables_classOf id).symm.trans hclass)

theorem classOf_of_mem {c : ProcessClass} (hc : c ∈ part.tables.classes) (hid : id ∈ c.members) :
    part.classOf id = c := by
  obtain ⟨i, hi⟩ := Array.mem_iff_getElem?.1 hc
  have hclass : part.tables.classOf id = some c := by
    rw [ClassTables.classOf, (part.agree id i).2 ⟨c, hi, hid⟩]
    exact hi
  exact Option.some.inj ((part.tables_classOf id).symm.trans hclass)

/-- The class of a process is one of the partition that lists it, or the process is on its own. -/
theorem classOf_cases (part : Partition) (id : ProcessId) :
    part.classOf id ∈ part.tables.classes ∧ id ∈ (part.classOf id).members ∨
      part.classOf id = .singleton id ∧ ∀ c ∈ part.tables.classes, id ∉ c.members := by
  by_cases hid : ∃ c ∈ part.tables.classes, id ∈ c.members
  · obtain ⟨c, hc, hid⟩ := hid
    rw [classOf_of_mem hc hid]
    exact .inl ⟨hc, hid⟩
  · have hid : ∀ c ∈ part.tables.classes, id ∉ c.members := fun c hc hmem => hid ⟨c, hc, hmem⟩
    exact .inr ⟨classOf_of_unlisted hid, hid⟩

theorem mem_classOf_self (part : Partition) (id : ProcessId) : id ∈ (part.classOf id).members := by
  rcases part.classOf_cases id with ⟨-, hid⟩ | ⟨hid, -⟩
  · exact hid
  · rw [hid]
    exact List.mem_cons_self

theorem classOf_eq_of_mem (hm : m ∈ (part.classOf id).members) : part.classOf m = part.classOf id := by
  rcases part.classOf_cases id with ⟨hc, -⟩ | ⟨hone, -⟩
  · exact classOf_of_mem hc hm
  · rw [hone] at hm
    rw [List.mem_singleton.1 hm]

variable (h : part.tables.IsOf lists)

include h

theorem representative_mem_classOf (id : ProcessId) : (part.classOf id).representative ∈ (part.classOf id).members := by
  rcases part.classOf_cases id with ⟨hc, -⟩ | ⟨hid, -⟩
  · exact h.representative_mem hc
  · rw [hid]
    exact List.mem_cons_self

/-- The members of a class are the process and all those that share a list with it. -/
theorem mem_classOf : m ∈ (part.classOf id).members ↔ m = id ∨ ∃ l ∈ lists, id ∈ l ∧ m ∈ l := by
  rw [← h.shared_iff]
  rcases part.classOf_cases id with ⟨hc, hid⟩ | ⟨hone, hid⟩
  · constructor
    · exact fun hm => .inr ⟨_, hc, hid, hm⟩
    · rintro (rfl | ⟨d, hd, hidd, hm⟩)
      · exact hid
      · rwa [classOf_of_mem hd hidd]
  · rw [hone]
    constructor
    · exact fun hm => .inl (List.mem_singleton.1 hm)
    · rintro (rfl | ⟨d, hd, hidd, -⟩)
      · exact List.mem_cons_self
      · exact absurd hidd (hid d hd)

/-- The representative decides about the class. -/
theorem classOf_eq_of_representative (hr : (part.classOf x).representative = (part.classOf id).representative) :
    part.classOf x = part.classOf id := by
  rw [← classOf_eq_of_mem (representative_mem_classOf h x), hr, classOf_eq_of_mem (representative_mem_classOf h id)]

/-- A class stands for itself. -/
theorem representative_classOf_representative (id : ProcessId) :
    (part.classOf (part.classOf id).representative).representative = (part.classOf id).representative := by
  rw [classOf_eq_of_mem (representative_mem_classOf h id)]

end ClassOf

/-! ### Answers -/

/-- What a stage that merges the classes of the partition should respond where it asked `asked` of the generator below:
the steps of all members, or the fault of the generator at one of them. -/
def IsRight (p : Partition) (known : KnownTransitions) (response : ProcessId × Except Fault Transitions)
    (asked : Log ProcessId Fault Transitions) : Prop :=
  match response with
  | (id, .ok ts) => Log.Succeeds asked ∧ Classes.IsMerged p.classOf known (p.classOf id) ts
  | (id, .error e) => ∃ front x, asked = front ++ [(x, .error e)] ∧ Log.Succeeds front ∧ x ∈ (p.classOf id).members

variable {σ : Type} {inner : Generator σ} {p₀ : Program} {m₀ : σ} {log : Log ProcessId Fault Transitions}
  {t : Program × (KnownTransitions × σ)}

theorem isRight_of_classes (h : part.tables.IsOf lists) {known : KnownTransitions}
    {response : ProcessId × Except Fault Transitions} {asked : Log ProcessId Fault Transitions}
    (hr : Classes.IsRight part.classOf log known response asked) : part.IsRight known response asked := by
  obtain ⟨id, e | ts⟩ := response
  · refine hr.resolve_right fun ⟨_, y, hy, _⟩ => ?_
    have hself : (part.classOf y).contains y = true := List.contains_iff_mem.2 (part.mem_classOf_self y)
    rw [hy] at hself
    cases hself
  · obtain ⟨hasked, -, first, hfirst, -, hmerged⟩ := hr
    refine ⟨hasked, ?_⟩
    rwa [← classOf_eq_of_representative h (Classes.representative_of_firstAnswer hfirst).2]

/-- A question that fails is not remembered. -/
theorem notes_eq_of_error {classOf : ProcessId → ProcessClass} {s : Program × σ}
    {asked : Log ProcessId Fault Transitions} (hsteady : inner.Steady s) (hasked : Asked inner s asked (t.1, t.2.2))
    {e : Fault} {t' : Program × (KnownTransitions × σ)} (he : Classes.successors classOf inner id t = .error e t') :
    t'.2.1 = t.2.1 := by
  have hvalid : Valid inner s (Classes.Unchanged t.2.1) (asked, t) := ⟨hasked, rfl⟩
  obtain ⟨k', part, rfl, hadds, -⟩ := (Classes.ends_successors_above (k := (asked, t)) hsteady hvalid id).of_error he
  exact hadds.notes

/-- A stage that merges the classes of a partition, above any steady generator, is asked for any processes in any order.
The questions that it puts to the generator fall into one part for each of them. Each answer is exactly that of the
class of the process, and a question fails only where the generator does. So answers are functions of the answers of
the generator, members of a class share one answer, targets are representatives, and failures are not remembered. -/
theorem answers_isMerged (hpart : ofLists lists = .ok part) (hsteady : inner.Steady (p₀, m₀))
    (hlog : Asked (Classes.successors part.classOf inner) (p₀, ∅, m₀) log t) :
    (∀ id m, m ∈ (part.classOf id).members ↔ m = id ∨ ∃ l ∈ lists, id ∈ l ∧ m ∈ l) ∧
      (∀ id, (part.classOf id).representative ∈ (part.classOf id).members) ∧
      (∃ parts : List (Log ProcessId Fault Transitions), Asked inner (p₀, m₀) parts.flatten (t.1, t.2.2) ∧
        List.Forall₂ (part.IsRight (ofLog parts.flatten)) log parts ∧
        ∀ given : ProcessId → Transitions, (∀ x us, (x, .ok us) ∈ parts.flatten → us.toList = (given x).toList) →
          ∀ id ts, (id, .ok ts) ∈ log → ∀ t, t ∈ ts ↔
            ∃ m ∈ (part.classOf id).members, ∃ x,
              ⟨t.action, x⟩ ∈ given m ∧ t.target = (part.classOf x).representative) ∧
      (∀ id ts, (id, .ok ts) ∈ log → ∀ m ∈ (part.classOf id).members, ∀ us, (m, .ok us) ∈ log → us = ts) ∧
      (∀ id ts, (id, .ok ts) ∈ log → ∀ t ∈ ts, (part.classOf t.target).representative = t.target) ∧
      ∀ id e t', Classes.successors part.classOf inner id t = .error e t' → t'.2.1 = t.2.1 := by
  have h := isOf_ofLists hpart
  obtain ⟨parts, hvalid, hclasses⟩ := Classes.exists_parts hsteady hlog
  have hright : List.Forall₂ (part.IsRight (ofLog parts.flatten)) log parts :=
    hclasses.imp fun _ _ => isRight_of_classes h
  have hmerged {id : ProcessId} {ts : Transitions} (hts : (id, .ok ts) ∈ log) :
      Classes.IsMerged part.classOf (ofLog parts.flatten) (part.classOf id) ts := by
    obtain ⟨asked, -, -, hmerged⟩ := (forall₂_exists hright).1 _ hts
    exact hmerged
  have hfirst {id : ProcessId} {ts : Transitions} (hts : (id, .ok ts) ∈ log) :
      ∃ first, Classes.firstAnswer part.classOf log (part.classOf id).representative = some (first, ts) := by
    obtain ⟨asked, -, -, -, first, hfirst, -⟩ := (forall₂_exists hclasses).1 _ hts
    exact ⟨first, hfirst⟩
  refine ⟨fun id m => mem_classOf h, representative_mem_classOf h, ⟨parts, hvalid.asked, hright, ?_⟩, ?_, ?_, ?_⟩
  · intro given hgiven id ts hts t
    exact (hmerged hts).mem_iff_given fun x us hus => hgiven x us (mem_of_ofLog hus)
  · intro id ts hts m hm us hus
    obtain ⟨first, hfirst₁⟩ := hfirst hts
    obtain ⟨second, hsecond⟩ := hfirst hus
    rw [classOf_eq_of_mem hm, hfirst₁] at hsecond
    cases hsecond
    rfl
  · intro id ts hts t ht
    obtain ⟨m, -, x, -, htarget⟩ := (hmerged hts).mem_iff.1 ht
    rw [htarget, representative_classOf_representative h]
  · exact fun id e t' he => notes_eq_of_error hsteady hvalid.asked he

/-- The terms `a.0`, `b.a.0` and `c.b.a.0`, with the identifiers 1, 2 and 3. -/
private def threePrefixes : Program :=
  let p := (Program.add ∅ .null).2
  let p := (p.add (.act (.visible "a" .input) 0)).2
  let p := (p.add (.act (.visible "b" .input) 1)).2
  (p.add (.act (.visible "c" .input) 2)).2

/-- The class of 1 and 2. -/
private def firstTwo : ClassTables where
  classes := #[⟨1, [1, 2]⟩]
  positions := ((∅ : Std.TreeMap ProcessId Nat).insert 1 0).insert 2 0

private theorem ofLists_firstTwo : ClassTables.ofLists [[2, 1, 2], []] = .ok firstTwo := by
  cbv

/-- With 1 and 2 in one class, the answer for 2 is also the one for 1, and the step of 3 leads to 1. -/
theorem answers_isMerged_twoOfThree :
    ∃ part, ofLists [[2, 1, 2], []] = .ok part ∧ Expansion.successors.Steady (threePrefixes, ∅) ∧
      ∃ ts us t, Asked (Classes.successors part.classOf Expansion.successors) (threePrefixes, ∅, ∅)
          [(3, .ok ts), (2, .ok us), (1, .ok us)] t ∧
        ts.toList = [⟨.visible "c" .input, 1⟩] ∧ ∀ u ∈ us, (part.classOf u.target).representative = u.target := by
  have hpart := ofLists_of_ok ofLists_firstTwo
  let part : Partition := ⟨firstTwo, ClassTables.agree_ofLists ofLists_firstTwo⟩
  let f := Classes.successors part.classOf Expansion.successors
  have heval : (match f 3 (threePrefixes, ∅, ∅) with
      | .ok ts t => match f 2 t with
        | .ok _ t => match f 1 t with
          | .ok _ _ => decide (ts.toList = [⟨.visible "c" .input, 1⟩])
          | _ => false
        | _ => false
      | _ => false) = true := by
    decide +kernel
  split at heval
  case h_2 => cases heval
  rename_i ts t₁ h₁
  split at heval
  case h_2 => cases heval
  rename_i us t₂ h₂
  split at heval
  case h_2 => cases heval
  rename_i us' t h₃
  have hasked : Asked f (threePrefixes, ∅, ∅) [(3, .ok ts), (2, .ok us), (1, .ok us')] t :=
    ((Asked.nil.snoc_ok h₁).snoc_ok h₂).snoc_ok h₃
  have hsteady : Expansion.successors.Steady (threePrefixes, ∅) := Expansion.steady _
  have hmember : (1 : ProcessId) ∈ (part.classOf 2).members := by decide
  obtain ⟨-, -, -, hshared, htargets, -⟩ := answers_isMerged hpart hsteady hasked
  obtain rfl : us' = us := hshared 2 us (by simp) 1 hmember us' (by simp)
  exact ⟨part, hpart, hsteady, ts, us', t, hasked, of_decide_eq_true heval, htargets 2 us' (by simp)⟩

end Partition

end ProcessCalculus
