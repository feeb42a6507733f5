import ProcessCalculus.Proofs.Transition.Generator
import ProcessCalculus.Proofs.Transition.Search

/-!
# Silent closures

The processes that silent steps lead to, found by a search that asks another generator. What the search has seen
stands for what the rules lead to, although the program changes while it runs.

* `Saturation.IsClosure`: the processes stand for what silent steps lead to.
* `Saturation.IsClosure.of_progress`: a search that ended has seen such processes.
* `Saturation.Sound`: the invariant of the notes.
* `Saturation.ends_silentClosure`: a closure is found unless it is too large.
-/

namespace ProcessCalculus

open Generator.State KnownTransitions Relation Search Term

namespace Saturation

/-- In a reading, the listed processes are those that silent steps lead to, up to simplification. -/
structure IsClosure (step : Term → Action → Term → Prop) (r : Reading) (id : ProcessId)
    (closure : List ProcessId) : Prop where
  lt : id < r.program.size
  mem_lt {x : ProcessId} : x ∈ closure → x < r.program.size
  sound {x : ProcessId} : x ∈ closure → ∃ u, SilentPath step (r.term id) u ∧ Simplifies u (r.term x)
  complete {u : Term} : SilentPath step (r.term id) u → ∃ x ∈ closure, Simplifies u (r.term x)

section Reaches

variable {step : Term → Action → Term → Prop} {r r' : Reading} {known : KnownTransitions} {root x id : ProcessId}
  {u : Term} {seen : ProcessSet} {closure : List ProcessId}

theorem IsClosure.keeps (h : IsClosure step r id closure) (hk : r.Keeps r') : IsClosure step r' id closure where
  lt := Nat.lt_of_lt_of_le h.lt hk.size_le
  mem_lt hx := Nat.lt_of_lt_of_le (h.mem_lt hx) hk.size_le
  sound hx := by
    rw [hk.term_eq h.lt, hk.term_eq (h.mem_lt hx)]
    exact h.sound hx
  complete hu := by
    rw [hk.term_eq h.lt] at hu
    obtain ⟨x, hx, hle⟩ := h.complete hu
    exact ⟨x, hx, by rwa [hk.term_eq (h.mem_lt hx)]⟩

/-- What is reached by known answers is in the program, unless it is the root itself. -/
theorem lt_of_reaches (ha : known.Answer step Simplifies r) (h : known.Reaches root x) :
    x = root ∨ root < r.program.size ∧ x < r.program.size := by
  induction h with
  | refl => exact .inl rfl
  | tail _ hstep ih =>
    obtain ⟨ts, hts, ht⟩ := hstep
    refine .inr ⟨?_, (ha hts).target_lt ht⟩
    rcases ih with rfl | ih
    · exact (ha hts).lt
    · exact ih.1

/-- As many processes are in the program as are reached from one of them. -/
theorem lt_size_of_exceeds (ha : known.Answer step Simplifies r) {limit : Nat} (hpos : 0 < limit)
    (h : known.Exceeds limit) : limit < r.program.size := by
  obtain ⟨root, l, hnodup, hlength, hreaches⟩ := h
  have hbound {l' : List ProcessId} (hsub : l ⊆ l') : limit < l'.length :=
    Nat.lt_of_lt_of_le hlength (hnodup.subperm hsub).length_le
  by_cases hroot : root < r.program.size
  · have hsub : l ⊆ List.range r.program.size := by
      intro x hx
      rcases lt_of_reaches ha (hreaches x hx) with rfl | hlt
      · exact List.mem_range.2 hroot
      · exact List.mem_range.2 hlt.2
    simpa using hbound hsub
  · -- without answers the root reaches itself only
    have hsub : l ⊆ [root] := by
      intro x hx
      exact List.mem_singleton.2 ((lt_of_reaches ha (hreaches x hx)).resolve_right fun hlt => hroot hlt.1)
    exact absurd (hbound hsub) (Nat.not_lt_of_le hpos)

theorem exists_silentPath (hb : IsBisimulation step step Simplifies) (ha : known.Answer step Simplifies r)
    (h : known.Reaches root x) : ∃ u, SilentPath step (r.term root) u ∧ Simplifies u (r.term x) := by
  induction h with
  | refl => exact ⟨_, .refl, .refl _⟩
  | tail _ hstep ih =>
    obtain ⟨ts, hts, ht⟩ := hstep
    obtain ⟨u, hu, hle⟩ := ih
    -- the answer is about what the process stands for, the path about what that may replace
    obtain ⟨v, hv, hvx⟩ := (ha hts).enumerates.sound ⟨_, ht, rfl, rfl⟩
    obtain ⟨v', hv', hle'⟩ := hb.back hle hv
    exact ⟨v', hu.tail hv', hle'.trans hvx⟩

theorem exists_mem_of_silentPath (hb : IsBisimulation step step Simplifies) (ha : known.Answer step Simplifies r)
    (hp : Progress known root [] seen) (h : SilentPath step (r.term root) u) :
    ∃ x ∈ seen, Simplifies u (r.term x) := by
  induction h with
  | refl => exact ⟨root, hp.root_mem.resolve_right List.not_mem_nil, .refl _⟩
  | tail _ hstep ih =>
    obtain ⟨x, hx, hle⟩ := ih
    obtain ⟨v, hv, hle'⟩ := hb.forth hle hstep
    obtain ⟨ts, hts, -⟩ := hp.exists_answer hx
    obtain ⟨_, ⟨⟨_, y⟩, ht, rfl, rfl⟩, hvy⟩ := (ha hts).enumerates.complete hv
    exact ⟨y, hp.mem_of_silent hx hts ht, hle'.trans hvy⟩

theorem IsClosure.of_progress (hb : IsBisimulation step step Simplifies) (ha : known.Answer step Simplifies r)
    (hp : Progress known root [] seen) : IsClosure step r root seen.toList where
  lt := by
    obtain ⟨ts, hts, -⟩ := hp.exists_answer (hp.root_mem.resolve_right List.not_mem_nil)
    exact (ha hts).lt
  mem_lt hx := by
    obtain ⟨ts, hts, -⟩ := hp.exists_answer hx
    exact (ha hts).lt
  sound hx := exists_silentPath hb ha (hp.reaches (.inl hx))
  complete hu := exists_mem_of_silentPath hb ha hp hu

end Reaches

/-- What holds of the notes of the stage in a reading. -/
structure Sound (step : Term → Action → Term → Prop) (r : Reading) (n : Saturation) : Prop where
  closures {id : ProcessId} {closure : List ProcessId} : n.closures[id]? = some closure → IsClosure step r id closure
  answers : n.known.Answer (Saturated step) Simplifies r

variable {σ : Type} {defs : String → Term → Prop} {step : Term → Action → Term → Prop} {inner : Generator σ}
  {answered : σ → KnownTransitions} {excused : Fault → σ → Prop} {I : Reading → σ → Prop} {limit : Nat}
  {r r' : Reading} {n : Saturation} {root id x : ProcessId}

namespace Sound

theorem empty (step : Term → Action → Term → Prop) (r : Reading) : Sound step r ∅ where
  closures h := by
    rw [show (∅ : Saturation).closures[_]? = none from Std.TreeMap.getElem?_emptyc] at h
    cases h
  answers := .empty

theorem keeps (h : Sound step r n) (hk : r.Keeps r') : Sound step r' n where
  closures hc := (h.closures hc).keeps hk
  answers := h.answers.keeps hk

theorem insert {closure : List ProcessId} (h : Sound step r n) (hc : IsClosure step r id closure) :
    Sound step r { n with closures := n.closures.insert id closure } where
  closures {other c} ho := by
    rw [Table.getElem?_insert] at ho
    split at ho
    · rename_i hid
      cases ho
      exact hid ▸ hc
    · exact h.closures ho
  answers := h.answers

end Sound

/-- The invariant of the stage and of the generator below it. -/
def Invariant (step : Term → Action → Term → Prop) (I : Reading → σ → Prop) (r : Reading) (n : Saturation × σ) :
    Prop :=
  Sound step r n.1 ∧ I r n.2

/-- What a part of saturation does: the generator below remembers its answers, and no new answer is given. -/
structure Later (step : Term → Action → Term → Prop) (answered : σ → KnownTransitions) (I : Reading → σ → Prop)
    (k k' : Generator.State (Saturation × σ)) : Prop extends Leads (Invariant step I) k k' where
  kept : (answered k.2.2).Kept (answered k'.2.2)
  known_eq : k'.2.1.known = k.2.1.known

/-- Which faults of the stage are excused: those of the generator below it, and the end of a search for a silent closure
that exceeds the limit. -/
def Excused (answered : σ → KnownTransitions) (excused : Fault → σ → Prop) (limit : Nat) (fault : Fault)
    (n : Saturation × σ) : Prop :=
  excused fault n.2 ∨ fault = .searchExhausted ∧ (answered n.2).Exceeds limit

/-- Why a search fails that started at `root` in the state `k`. -/
def Fails (step : Term → Action → Term → Prop) (answered : σ → KnownTransitions) (excused : Fault → σ → Prop)
    (I : Reading → σ → Prop) (limit : Nat) (k : Generator.State (Saturation × σ)) (root : ProcessId) (fault : Fault)
    (t : Program × (Saturation × σ)) : Prop :=
  ∃ k' : Generator.State (Saturation × σ), k'.toPair = t ∧ Leads (Invariant step I) k k' ∧
    (k.1.program.size ≤ root ∨ Excused answered excused limit fault k'.2)

namespace Later

variable {k k' k'' : Generator.State (Saturation × σ)}

theorem refl (h : Invariant step I k.1 k.2) : Later step answered I k k :=
  ⟨.refl h, .refl _, rfl⟩

theorem trans (h : Later step answered I k k') (h' : Later step answered I k' k'') :
    Later step answered I k k'' :=
  ⟨h.toLeads.trans h'.toLeads, h.kept.trans h'.kept, h'.known_eq.trans h.known_eq⟩

end Later

section Inner

variable (h : inner.Correct defs step answered excused I) {k : Generator.State (Saturation × σ)}

include h

/-- An answer of the generator below. -/
theorem ends_innerAnswer (hk : Invariant step I k.1 k.2) (htotal : k.1.Total defs) (id : ProcessId) :
    Ends (inner id).inner k.toPair
      (fun ts t => ∃ k' : Generator.State (Saturation × σ), k'.toPair = t ∧ Later step answered I k k' ∧
        (answered k'.2.2)[id]? = some ts)
      fun fault t => ∃ k' : Generator.State (Saturation × σ), k'.toPair = t ∧ Leads (Invariant step I) k k' ∧
        (k.1.program.size ≤ id ∨ excused fault k'.2.2) := by
  obtain ⟨r, n, m⟩ := k
  rw [toPair, ends_inner]
  refine (h.ends (k := (r, m)) id hk.2 htotal).mono ?_ ?_
  · rintro ts _ ⟨⟨r', m'⟩, rfl, ⟨hm', hp⟩, hkept, hts⟩
    exact ⟨(r', n, m'), rfl, ⟨⟨⟨hk.1.keeps hp.toKeeps, hm'⟩, hp⟩, hkept, rfl⟩, hts⟩
  · rintro _ _ ⟨⟨r', m'⟩, rfl, ⟨hm', hp⟩, hwhy⟩
    exact ⟨(r', n, m'), rfl, ⟨⟨hk.1.keeps hp.toKeeps, hm'⟩, hp⟩, hwhy⟩

/-- A visit of a search fails only if its root is not in the program or the generator below is excused. -/
theorem fails_of_inner {k₀ : Generator.State (Saturation × σ)} (hk : Later step answered I k₀ k)
    (hx : (answered k.2.2).Reaches root x) {fault : Fault} {t : Program × (Saturation × σ)}
    (ht : ∃ k' : Generator.State (Saturation × σ), k'.toPair = t ∧ Leads (Invariant step I) k k' ∧
      (k.1.program.size ≤ x ∨ excused fault k'.2.2)) :
    Fails step answered excused I limit k₀ root fault t := by
  obtain ⟨k', rfl, hleads, hwhy⟩ := ht
  refine ⟨k', rfl, hk.toLeads.trans hleads, ?_⟩
  rcases hwhy with hsize | hwhy
  · rcases lt_of_reaches (h.answers hk.invariant.2) hx with rfl | hlt
    · exact .inl (Nat.le_trans hk.preserves.size_le hsize)
    · exact absurd hlt.2 (Nat.not_lt_of_le hsize)
  · exact .inr (.inl hwhy)

/-- The silent closure of a process is found, unless it is too large. -/
theorem ends_silentClosure (hb : IsBisimulation step step Simplifies) (hk : Invariant step I k.1 k.2)
    (htotal : k.1.Total defs) (id : ProcessId) :
    Ends (silentClosure limit inner id) k.toPair
      (fun closure t => ∃ k' : Generator.State (Saturation × σ), k'.toPair = t ∧ Later step answered I k k' ∧
        IsClosure step k'.1 id closure)
      fun fault t => Fails step answered excused I limit k id fault t := by
  unfold silentClosure
  rw [ends_bind, toPair, ends_notes]
  split
  · rename_i closure hc
    exact ⟨k, rfl, .refl hk, hk.1.closures hc⟩
  · dsimp only
    rw [ends_bind]
    refine (Search.ends_run (w := toPair) (K := fun k' => answered k'.2.2) (I := Later step answered I k)
      (F := fun _ _ _ => True) ?_ ?_ (.refl hk) trivial (.start _ _)
      (Nat.zero_add limit)).mono ?_ fun _ _ h => h
    · intro k' _ seen x hk' _ hx
      rw [ends_bind]
      refine (ends_innerAnswer h hk'.invariant (htotal.preserves hk'.preserves) x).mono ?_ ?_
      · rintro ts _ ⟨k'', rfl, hk'', hts⟩
        exact ⟨k'', ts, rfl, hk'.trans hk'', hk''.kept, hts, rfl, trivial⟩
      · exact fun _ _ ht => fails_of_inner h hk' hx ht
    · exact fun k' hk' hex => ⟨k', rfl, hk'.toLeads, .inr (.inr ⟨rfl, id, hex⟩)⟩
    · rintro ⟨seen, _⟩ _ ⟨⟨r', n', m'⟩, rfl, hk', hp, -⟩
      rw [ends_bind, toPair, ends_modifyNotes, ends_pure]
      have hc := IsClosure.of_progress hb (h.answers hk'.invariant.2) hp
      have hinvariant : Invariant step I r' ({ n' with closures := n'.closures.insert id seen.toList }, m') :=
        ⟨hk'.invariant.1.insert hc, hk'.invariant.2⟩
      exact ⟨(r', _, m'), rfl, ⟨⟨hinvariant, hk'.preserves⟩, hk'.kept, hk'.known_eq⟩, hc⟩

end Inner

end Saturation

end ProcessCalculus
