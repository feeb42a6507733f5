/-!
# Strictly sorted lists

Lists that are strictly increasing in a given order, and the one operation that builds them:
`upsert` puts an element at its place, or changes the equal element that stands there already.

* `sorted_upsert`: the result is strictly sorted again.
* `mem_upsert`: with `f` the identity, the members are the old ones and at most the new one.
* `upsert_append_of_lt`, `upsert_append_of_gt`: an element below (above) a separator goes to the
  part on its left (right).
-/

namespace ProcessCalculus.SortedList

open Std

variable {α : Type}

/-- The list is strictly increasing in the order `cmp`. -/
def Sorted (cmp : α → α → Ordering) (l : List α) : Prop :=
  l.Pairwise fun a b => cmp a b = .lt

/-- Puts `a` at its place in the order; if an equal element stands there already, that element
becomes `f` of itself instead. -/
def upsert (cmp : α → α → Ordering) (f : α → α) (a : α) : List α → List α
  | [] => [a]
  | b :: l =>
    match cmp a b with
    | .lt => a :: b :: l
    | .eq => f b :: l
    | .gt => b :: upsert cmp f a l

variable {cmp : α → α → Ordering} {f : α → α}

/-- Everything in the result was there, is new, or is the changed form of an equal element. -/
theorem of_mem_upsert {a c : α} {l : List α} (h : c ∈ upsert cmp f a l) :
    c ∈ l ∨ c = a ∨ ∃ b ∈ l, cmp a b = .eq ∧ c = f b := by
  induction l with
  | nil => simp_all [upsert]
  | cons b l ih =>
    unfold upsert at h
    split at h
    · simp only [List.mem_cons] at h ⊢
      rcases h with h | h | h <;> simp [h]
    · rename_i hb
      simp only [List.mem_cons] at h ⊢
      rcases h with h | h
      · exact .inr (.inr ⟨b, .inl rfl, hb, h⟩)
      · exact .inl (.inr h)
    · simp only [List.mem_cons] at h ⊢
      rcases h with h | h
      · exact .inl (.inl h)
      · rcases ih h with h | h | ⟨d, hd, he⟩
        · exact .inl (.inr h)
        · exact .inr (.inl h)
        · exact .inr (.inr ⟨d, .inr hd, he⟩)

theorem sorted_upsert [TransCmp cmp] {a : α} (hf : ∀ b, cmp a b = .eq → cmp (f b) b = .eq)
    {l : List α} (h : Sorted cmp l) : Sorted cmp (upsert cmp f a l) := by
  induction l with
  | nil => simp [upsert, Sorted]
  | cons b l ih =>
    obtain ⟨hb, hl⟩ := List.pairwise_cons.1 h
    unfold upsert
    split
    · rename_i hab
      refine List.pairwise_cons.2 ⟨fun c hc => ?_, h⟩
      rcases List.mem_cons.1 hc with rfl | hc
      · exact hab
      · exact TransCmp.lt_trans hab (hb c hc)
    · rename_i hab
      exact List.pairwise_cons.2
        ⟨fun c hc => TransCmp.lt_of_eq_of_lt (hf b hab) (hb c hc), hl⟩
    · rename_i hab
      refine List.pairwise_cons.2 ⟨fun c hc => ?_, ih hl⟩
      have hba : cmp b a = .lt := OrientedCmp.lt_of_gt hab
      rcases of_mem_upsert hc with hc | rfl | ⟨d, _, hd, rfl⟩
      · exact hb c hc
      · exact hba
      · exact TransCmp.lt_of_lt_of_eq (TransCmp.lt_of_lt_of_eq hba hd)
          (OrientedCmp.eq_symm (hf d hd))

/-- In an order where equal elements are identical, insertion adds exactly the new element. -/
theorem mem_upsert [LawfulEqCmp cmp] {a c : α} {l : List α} :
    c ∈ upsert cmp id a l ↔ c = a ∨ c ∈ l := by
  induction l with
  | nil => simp [upsert]
  | cons b l ih =>
    unfold upsert
    split
    · simp
    · rename_i h
      have := LawfulEqCmp.eq_of_compare h
      simp [this]
    · simp only [List.mem_cons, ih]
      exact or_left_comm

theorem upsert_append_of_lt {a m : α} (h : cmp a m = .lt) (l r : List α) :
    upsert cmp f a (l ++ m :: r) = upsert cmp f a l ++ m :: r := by
  induction l with
  | nil => simp [upsert, h]
  | cons b l ih =>
    simp only [List.cons_append, upsert]
    split <;> simp [ih]

theorem upsert_append_of_gt {a : α} {l : List α} (h : ∀ b ∈ l, cmp a b = .gt) (r : List α) :
    upsert cmp f a (l ++ r) = l ++ upsert cmp f a r := by
  induction l with
  | nil => rfl
  | cons b l ih =>
    rw [List.cons_append, upsert, h b (by simp)]
    simp [ih fun c hc => h c (by simp [hc])]

/-- An element that equals none of the list makes it longer by one. -/
theorem length_upsert_of_new {a : α} {l : List α} (h : ∀ b ∈ l, cmp a b ≠ .eq) :
    (upsert cmp f a l).length = l.length + 1 := by
  induction l with
  | nil => rfl
  | cons b l ih =>
    unfold upsert
    split
    · simp
    · rename_i hb
      exact absurd hb (h b (by simp))
    · simp [ih fun c hc => h c (by simp [hc])]

/-- Two strictly sorted lists with the same members are the same list. -/
theorem eq_of_mem_iff [TransCmp cmp] [LawfulEqCmp cmp] {l r : List α} (hl : Sorted cmp l)
    (hr : Sorted cmp r) (h : ∀ a, a ∈ l ↔ a ∈ r) : l = r := by
  have irrefl (a : α) : cmp a a ≠ .lt := by simp [ReflCmp.compare_self]
  induction l generalizing r with
  | nil =>
    cases r with
    | nil => rfl
    | cons b r => exact absurd ((h b).2 (by simp)) (by simp)
  | cons a l ih =>
    cases r with
    | nil => exact absurd ((h a).1 (by simp)) (by simp)
    | cons b r =>
      obtain ⟨ha, hl'⟩ := List.pairwise_cons.1 hl
      obtain ⟨hb, hr'⟩ := List.pairwise_cons.1 hr
      have hab : a = b := by
        rcases List.mem_cons.1 ((h a).1 (by simp)) with e | e
        · exact e
        · rcases List.mem_cons.1 ((h b).2 (by simp)) with e' | e'
          · exact e'.symm
          · exact absurd (TransCmp.lt_trans (ha b e') (hb a e)) (irrefl a)
      subst hab
      congr 1
      refine ih hl' hr' fun c => ⟨fun hc => ?_, fun hc => ?_⟩
      · rcases List.mem_cons.1 ((h c).1 (by simp [hc])) with rfl | e
        · exact absurd (ha c hc) (irrefl c)
        · exact e
      · rcases List.mem_cons.1 ((h c).2 (by simp [hc])) with rfl | e
        · exact absurd (hb c hc) (irrefl c)
        · exact e

end ProcessCalculus.SortedList
