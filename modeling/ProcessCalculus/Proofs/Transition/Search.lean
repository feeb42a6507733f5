import Mathlib.Data.List.TakeWhile
import ProcessCalculus.Transition.Saturation
import ProcessCalculus.Proofs.Program.Outcome
import ProcessCalculus.Proofs.Transition.Answers

/-!
# Search along silent steps

What a search has seen when it ends: the processes that the silent steps of known answers reach from its root. It
ends if these are not more than the limit.

* `KnownTransitions.Reaches`: silent steps of known answers lead from one process to another.
* `Search.Progress`: what holds between two visits.
* `Search.ends_run`: the search, for any visit that makes an answer known and says where its silent steps lead.
-/

namespace ProcessCalculus

namespace TreapSet

variable {α : Type} {cmp : α → α → Ordering} [Std.TransCmp cmp]

theorem size_insert_of_not_mem [Std.LawfulEqCmp cmp] {s : TreapSet α cmp} {a : α} (h : a ∉ s) :
    (s.insert a).size = s.size + 1 := by
  rw [size_eq_length, toList_insert, size_eq_length, SortedList.length_upsert_of_new]
  intro b hb hab
  exact h (Std.LawfulEqCmp.eq_of_compare hab ▸ hb)

end TreapSet

namespace KnownTransitions

/-- A silent step that is known. -/
def Silent (known : KnownTransitions) (x y : ProcessId) : Prop :=
  ∃ ts, known[x]? = some ts ∧ ⟨.silent, y⟩ ∈ ts

/-- Any number of silent steps that are known. -/
def Reaches (known : KnownTransitions) : ProcessId → ProcessId → Prop :=
  Relation.ReflTransGen known.Silent

/-- More than `limit` processes are reached from `root` by silent steps that are known. -/
def ExceedsFrom (known : KnownTransitions) (limit : Nat) (root : ProcessId) : Prop :=
  ∃ l, List.Nodup l ∧ limit < l.length ∧ ∀ x ∈ l, known.Reaches root x

/-- More than `limit` processes are reached from one process by silent steps that are known. -/
def Exceeds (known : KnownTransitions) (limit : Nat) : Prop :=
  ∃ root l, List.Nodup l ∧ limit < l.length ∧ ∀ x ∈ l, known.Reaches root x

theorem Reaches.kept {known known' : KnownTransitions} {x y : ProcessId} (h : known.Reaches x y)
    (hk : known.Kept known') : known'.Reaches x y :=
  Relation.ReflTransGen.mono (fun _ _ ⟨ts, hts, ht⟩ => ⟨ts, hk _ _ hts, ht⟩) _ _ h

end KnownTransitions

theorem Saturation.mem_silentTargets {ts : Transitions} {x : ProcessId} :
    x ∈ silentTargets ts ↔ ⟨.silent, x⟩ ∈ ts := by
  rw [silentTargets, List.mem_reverse, Transitions.mem_targets]

namespace Search

open KnownTransitions Saturation

/-- What holds between two visits of a search from `root`. The silent steps of what was seen lead to what was seen or
stands on the stack. -/
structure Progress (known : KnownTransitions) (root : ProcessId) (stack : List ProcessId) (seen : ProcessSet) :
    Prop where
  root_mem : root ∈ seen ∨ root ∈ stack
  reaches {x : ProcessId} : x ∈ seen ∨ x ∈ stack → known.Reaches root x
  exists_answer {x : ProcessId} : x ∈ seen →
    ∃ ts, known[x]? = some ts ∧ ∀ y, ⟨.silent, y⟩ ∈ ts → y ∈ seen ∨ y ∈ stack

namespace Progress

variable {known known' : KnownTransitions} {root x y : ProcessId} {stack rest : List ProcessId} {seen : ProcessSet}
  {ts : Transitions}

theorem start (known : KnownTransitions) (root : ProcessId) : Progress known root [root] ∅ where
  root_mem := .inr (List.mem_singleton_self root)
  reaches hx := by
    rcases hx with hx | hx
    · exact absurd hx TreapSet.not_mem_empty
    · exact List.mem_singleton.1 hx ▸ .refl
  exists_answer hx := absurd hx TreapSet.not_mem_empty

theorem kept (h : Progress known root stack seen) (hk : known.Kept known') : Progress known' root stack seen where
  root_mem := h.root_mem
  reaches hx := (h.reaches hx).kept hk
  exists_answer hx := by
    obtain ⟨ts, hts, hnext⟩ := h.exists_answer hx
    exact ⟨ts, hk _ _ hts, hnext⟩

private theorem mem_dropWhile : x ∈ seen ∨ x ∈ stack ↔ x ∈ seen ∨ x ∈ stack.dropWhile seen.contains := by
  constructor
  · rintro (hx | hx)
    · exact .inl hx
    · rw [← List.takeWhile_append_dropWhile (p := seen.contains) (l := stack), List.mem_append] at hx
      exact hx.imp_left fun hx => TreapSet.contains_iff_mem.1 (List.mem_takeWhile_imp hx)
  · exact Or.imp_right fun hx => (List.dropWhile_sublist _).subset hx

/-- What was seen need not be visited again. -/
theorem dropWhile (h : Progress known root stack seen) :
    Progress known root (stack.dropWhile seen.contains) seen where
  root_mem := mem_dropWhile.1 h.root_mem
  reaches hx := h.reaches (mem_dropWhile.2 hx)
  exists_answer hx := by
    obtain ⟨ts, hts, hnext⟩ := h.exists_answer hx
    exact ⟨ts, hts, fun y hy => mem_dropWhile.1 (hnext y hy)⟩

theorem visit (h : Progress known root (x :: rest) seen) (hts : known[x]? = some ts) :
    Progress known root (silentTargets ts ++ rest) (seen.insert x) := by
  have hmem (y : ProcessId) (hy : y ∈ seen ∨ y ∈ x :: rest) :
      y ∈ seen.insert x ∨ y ∈ silentTargets ts ++ rest := by
    rw [TreapSet.mem_insert, List.mem_append]
    rw [List.mem_cons] at hy
    grind
  constructor
  · exact hmem root h.root_mem
  · intro y hy
    rw [TreapSet.mem_insert, List.mem_append, mem_silentTargets] at hy
    rcases hy with (rfl | hy) | hy | hy
    · exact h.reaches (.inr List.mem_cons_self)
    · exact h.reaches (.inl hy)
    · exact (h.reaches (.inr List.mem_cons_self)).tail ⟨ts, hts, hy⟩
    · exact h.reaches (.inr (List.mem_cons_of_mem x hy))
  · intro y hy
    rcases TreapSet.mem_insert.1 hy with rfl | hy
    · exact ⟨ts, hts, fun z hz => .inr (List.mem_append_left rest (mem_silentTargets.2 hz))⟩
    · obtain ⟨us, hus, hnext⟩ := h.exists_answer hy
      exact ⟨us, hus, fun z hz => hmem z (hnext z hz)⟩

/-- At the end, all that is reached by silent steps was seen. -/
theorem mem_of_silent (h : Progress known root [] seen) (hx : x ∈ seen) (hts : known[x]? = some ts)
    (hy : ⟨.silent, y⟩ ∈ ts) : y ∈ seen := by
  obtain ⟨us, hus, hnext⟩ := h.exists_answer hx
  obtain rfl : us = ts := Option.some.inj (hus.symm.trans hts)
  exact (hnext y hy).resolve_right List.not_mem_nil

/-- A process that was not seen, beside `limit` many that were. -/
theorem exceeds (h : Progress known root (x :: rest) seen) (hx : x ∉ seen) : known.ExceedsFrom seen.size root := by
  refine ⟨x :: seen.toList, List.nodup_cons.2 ⟨hx, seen.nodup_toList⟩, ?_, fun y hy => ?_⟩
  · rw [List.length_cons, TreapSet.size_eq_length]
    exact Nat.lt_succ_self _
  · rcases List.mem_cons.1 hy with rfl | hy
    · exact h.reaches (.inr List.mem_cons_self)
    · exact h.reaches (.inl hy)

end Progress

private theorem not_mem_of_dropWhile {stack rest : List ProcessId} {seen : ProcessSet} {x : ProcessId}
    (h : stack.dropWhile seen.contains = x :: rest) : x ∉ seen := by
  intro hx
  have hhead := List.head_dropWhile_not (p := seen.contains) (l := stack) (by rw [h]; exact List.cons_ne_nil x rest)
  simp only [h, List.head_cons] at hhead
  rw [TreapSet.contains_iff_mem.2 hx] at hhead
  cases hhead

variable {τ β κ : Type} {visit : β → ProcessId → Pass τ (List ProcessId × β)} {w : κ → Program × τ}
  {K : κ → KnownTransitions} {I : κ → Prop} {F : κ → β → ProcessSet → Prop}
  {fail : Fault → Program × τ → Prop} {root : ProcessId} {bound : Nat}

/-- A search ends with the silent closure of its root, or it is given up at more than `bound` processes. `F` is what
is found in the processes that were seen. By induction on the limit, which is what is left of the bound. -/
theorem ends_run
    (hvisit : ∀ k found seen x, I k → F k found seen → (K k).Reaches root x →
      Ends (visit found x) (w k)
        (fun a t => ∃ k' ts, w k' = t ∧ I k' ∧ (K k).Kept (K k') ∧ (K k')[x]? = some ts ∧
          a.1 = silentTargets ts ∧ F k' a.2 (seen.insert x))
        fail)
    (hbound : ∀ k, I k → (K k).ExceedsFrom bound root → fail .searchExhausted (w k)) {limit : Nat}
    {stack : List ProcessId}
    {seen : ProcessSet} {found : β} {k : κ} (hk : I k) (hf : F k found seen)
    (hp : Progress (K k) root stack seen) (hlimit : seen.size + limit = bound) :
    Ends (run visit limit stack seen found) (w k)
      (fun a t => ∃ k', w k' = t ∧ I k' ∧ Progress (K k') root [] a.1 ∧ F k' a.2 a.1) fail := by
  induction limit generalizing stack seen found k with
  | zero =>
    have hp := hp.dropWhile
    unfold run
    cases hstack : stack.dropWhile seen.contains with
    | nil => exact ⟨k, rfl, hk, hstack ▸ hp, hf⟩
    | cons x rest =>
      rw [hstack] at hp
      -- as many processes as allowed were seen, and here is one more
      exact hbound k hk (hlimit ▸ hp.exceeds (not_mem_of_dropWhile hstack))
  | succ limit ih =>
    have hp := hp.dropWhile
    unfold run
    cases hstack : stack.dropWhile seen.contains with
    | nil => exact ⟨k, rfl, hk, hstack ▸ hp, hf⟩
    | cons x rest =>
      rw [hstack] at hp
      have hsize := TreapSet.size_insert_of_not_mem (not_mem_of_dropWhile hstack)
      dsimp only
      rw [ends_bind]
      refine (hvisit k found seen x hk hf (hp.reaches (.inr List.mem_cons_self))).mono ?_ fun _ _ h => h
      rintro ⟨next, found'⟩ _ ⟨k', ts, rfl, hk', hkept, hts, rfl, hf'⟩
      exact ih hk' hf' ((hp.kept hkept).visit hts) (by omega)

end Search

end ProcessCalculus
