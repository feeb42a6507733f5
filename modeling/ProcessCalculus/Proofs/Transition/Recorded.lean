import ProcessCalculus.Proofs.Program.Questions
import ProcessCalculus.Proofs.Transition.Answers

/-!
# Generators that are asked by a stage

A stage asks the generator below it, whatever that generator is. The log of its questions tells what the stage has to
go by: the steps that were answered. A generator is steady if it never gives another answer for a process than before;
it may fail before and after.

* `KnownTransitions.ofLog`: the answers in a log; `KnownTransitions.Step`: the steps in them.
* `Generator.Steady`: answers do not change.
* `Recorded`: a state of a stage, with the log of what it asked so far.
* `Recorded.ends_question`: one question.
* `Recorded.exists_parts`: the log of a stage, with the part of the log below it that belongs to each request.
-/

namespace ProcessCalculus

namespace KnownTransitions

/-- The first answer for each process in a log. -/
def ofLog : Log ProcessId Fault Transitions → KnownTransitions
  | [] => ∅
  | (id, .ok ts) :: log => (ofLog log).insert id ts
  | (_, .error _) :: log => ofLog log

/-- A step that is known. -/
def Step (known : KnownTransitions) (x : ProcessId) (a : Action) (y : ProcessId) : Prop :=
  ∃ ts, known[x]? = some ts ∧ ⟨a, y⟩ ∈ ts

variable {known known' : KnownTransitions} {log : Log ProcessId Fault Transitions} {id x y : ProcessId} {a : Action}
  {ts : Transitions}

theorem mem_of_ofLog (h : (ofLog log)[id]? = some ts) : (id, .ok ts) ∈ log := by
  induction log with
  | nil =>
    rw [ofLog, Std.TreeMap.getElem?_emptyc] at h
    cases h
  | cons q log ih =>
    obtain ⟨other, us | e⟩ := q
    · exact List.mem_cons_of_mem _ (ih h)
    · rw [ofLog, Table.getElem?_insert] at h
      split at h
      · rename_i hid
        cases h
        exact hid ▸ List.mem_cons_self
      · exact List.mem_cons_of_mem _ (ih h)

theorem exists_ofLog (h : (id, .ok ts) ∈ log) : ∃ us, (ofLog log)[id]? = some us := by
  induction log with
  | nil => exact absurd h List.not_mem_nil
  | cons q log ih =>
    obtain ⟨other, e | us⟩ := q
    · exact ih ((List.mem_cons.1 h).resolve_left nofun)
    · rw [ofLog, Table.getElem?_insert]
      split
      · exact ⟨us, rfl⟩
      · rename_i hid
        refine ih ((List.mem_cons.1 h).resolve_left fun heq => hid ?_)
        cases heq
        rfl

/-- What is answered later does not change what is known. -/
theorem kept_append (log part : Log ProcessId Fault Transitions) : (ofLog log).Kept (ofLog (log ++ part)) := by
  induction log with
  | nil =>
    intro id ts h
    rw [ofLog, Std.TreeMap.getElem?_emptyc] at h
    cases h
  | cons q log ih =>
    obtain ⟨other, e | us⟩ := q
    · exact ih
    · intro id ts h
      rw [List.cons_append, ofLog, Table.getElem?_insert] at *
      split at h
      · rwa [if_pos (by assumption)]
      · rw [if_neg (by assumption)]
        exact ih id ts h

theorem Step.kept (h : known.Step x a y) (hk : known.Kept known') : known'.Step x a y := by
  obtain ⟨ts, hts, ht⟩ := h
  exact ⟨ts, hk x ts hts, ht⟩

theorem Step.of_kept (h : known'.Step x a y) (hk : known.Kept known') (hx : ∃ ts, known[x]? = some ts) :
    known.Step x a y := by
  obtain ⟨ts, hts, ht⟩ := h
  obtain ⟨us, hus⟩ := hx
  obtain rfl : us = ts := Option.some.inj ((hk x us hus).symm.trans hts)
  exact ⟨us, hus, ht⟩

end KnownTransitions

/-- However the generator is asked from the state on, all answers that it gives for one process have the same
transitions. -/
def Generator.Steady {σ : Type} (g : Generator σ) (s : Program × σ) : Prop :=
  ∀ ⦃log t⦄, Asked g s log t → ∀ ⦃id ts us⦄, (id, .ok ts) ∈ log → (id, .ok us) ∈ log → ts.toList = us.toList

/-- A state of a stage with notes of type `ν`, after all that was asked of the generator below it. -/
abbrev Recorded (ν σ : Type) := Log ProcessId Fault Transitions × (Program × (ν × σ))

namespace Recorded

open KnownTransitions

variable {ν σ : Type} {inner : Generator σ} {s : Program × σ} {N : KnownTransitions → ν → Prop}
  {k k' k'' : Recorded ν σ}

/-- The answers of the generator below. -/
def known (k : Recorded ν σ) : KnownTransitions :=
  ofLog k.1

/-- The log is one of the generator below, and the notes of the stage are as they should be. -/
structure Valid (inner : Generator σ) (s : Program × σ) (N : KnownTransitions → ν → Prop) (k : Recorded ν σ) :
    Prop where
  asked : Asked inner s k.1 (k.2.1, k.2.2.2)
  notes : N k.known k.2.2.1

/-- What a part of the stage does that asked `part` of the generator below. -/
structure Adds (inner : Generator σ) (s : Program × σ) (N : KnownTransitions → ν → Prop)
    (part : Log ProcessId Fault Transitions) (k k' : Recorded ν σ) : Prop extends Valid inner s N k' where
  log_eq : k'.1 = k.1 ++ part

theorem Adds.kept {part : Log ProcessId Fault Transitions} (h : Adds inner s N part k k') : k.known.Kept k'.known := by
  unfold known
  rw [h.log_eq]
  exact kept_append _ _

/-- What a part of the stage does if it succeeds: nothing that it asked has failed. -/
def Advances (inner : Generator σ) (s : Program × σ) (N : KnownTransitions → ν → Prop) (k k' : Recorded ν σ) : Prop :=
  ∃ part, Adds inner s N part k k' ∧ Log.Succeeds part

namespace Advances

theorem refl (h : Valid inner s N k) : Advances inner s N k k :=
  ⟨[], ⟨h, (List.append_nil _).symm⟩, .nil⟩

theorem trans (h : Advances inner s N k k') (h' : Advances inner s N k' k'') : Advances inner s N k k'' := by
  obtain ⟨part, ha, hs⟩ := h
  obtain ⟨part', ha', hs'⟩ := h'
  exact ⟨part ++ part', ⟨ha'.toValid, by rw [ha'.log_eq, ha.log_eq, List.append_assoc]⟩, hs.append hs'⟩

theorem valid (h : Advances inner s N k k') : Valid inner s N k' :=
  h.choose_spec.1.toValid

theorem kept (h : Advances inner s N k k') : k.known.Kept k'.known :=
  h.choose_spec.1.kept

end Advances

/-- Another question to the generator below. Its answer is the one that is known. -/
theorem ends_question (hsteady : inner.Steady s)
    (hN : ∀ ⦃known known' n⦄, KnownTransitions.Kept known known' → N known n → N known' n)
    (hk : Valid inner s N k) (id : ProcessId) :
    Ends (inner id).inner k.2
      (fun ts t => ∃ k', k'.2 = t ∧ Advances inner s N k k' ∧ k'.2.2.1 = k.2.2.1 ∧
        ∃ us, k'.known[id]? = some us ∧ us.toList = ts.toList)
      fun e t => ∃ k', k'.2 = t ∧ Adds inner s N [(id, .error e)] k k' ∧ k'.2.2.1 = k.2.2.1 := by
  obtain ⟨log, p, n, m⟩ := k
  rw [ends_inner]
  refine (hk.asked.ends id).mono ?_ ?_
  · rintro ts ⟨p', m'⟩ hasked
    have hmem : (id, .ok ts) ∈ log ++ [(id, .ok ts)] := List.mem_append_right _ List.mem_cons_self
    obtain ⟨us, hus⟩ := exists_ofLog hmem
    have hlater : Advances inner s N (log, p, n, m) (log ++ [(id, .ok ts)], p', n, m') :=
      ⟨_, ⟨⟨hasked, hN (kept_append _ _) hk.notes⟩, rfl⟩, .singleton id ts⟩
    exact ⟨_, rfl, hlater, rfl, us, hus, hsteady hasked (mem_of_ofLog hus) hmem⟩
  · rintro e ⟨p', m'⟩ hasked
    exact ⟨(log ++ [(id, .error e)], p', n, m'), rfl, ⟨⟨hasked, hN (kept_append _ _) hk.notes⟩, rfl⟩, rfl⟩

/-- A stage is asked one request after the other. If what one request does is known, the log below it is split into one
part for each request. `R` says what a request and its part have to do with each other; it has to stay true when more is
asked and known. -/
theorem exists_parts {ι α : Type} {f : ι → Pass (ν × σ) α} {N : Log ι Fault α → KnownTransitions → ν → Prop}
    {R : Log ι Fault α → KnownTransitions → ι × Except Fault α → Log ProcessId Fault Transitions → Prop}
    {p : Program} {n : ν} {m : σ} (hstart : N [] ∅ n)
    (hkept : ∀ ⦃log known known' q part⦄ next, KnownTransitions.Kept known known' → R log known q part →
      R (log ++ [next]) known' q part)
    (hstep : ∀ ⦃log⦄ ⦃k : Recorded ν σ⦄ i, Valid inner (p, m) (N log) k →
      ∃ k' part, k'.2 = after (f i) k.2 ∧
        Adds inner (p, m) (N (log ++ [(i, answer (f i) k.2)])) part k k' ∧
        R (log ++ [(i, answer (f i) k.2)]) k'.known (i, answer (f i) k.2) part)
    {log : Log ι Fault α} {t : Program × (ν × σ)} (h : Asked f (p, n, m) log t) :
    ∃ parts, Valid inner (p, m) (N log) (parts.flatten, t) ∧
      List.Forall₂ (R log (ofLog parts.flatten)) log parts := by
  induction h with
  | nil => exact ⟨[], ⟨.nil, hstart⟩, .nil⟩
  | @snoc log t _ i ih =>
    obtain ⟨parts, hvalid, hparts⟩ := ih
    obtain ⟨k', part, hk', hadds, hnew⟩ := hstep i hvalid
    have hlog : (parts ++ [part]).flatten = k'.1 := by
      rw [hadds.log_eq, List.flatten_append, List.flatten_singleton]
    refine ⟨parts ++ [part], ?_, List.rel_append ?_ (.cons ?_ .nil)⟩
    · rw [hlog, ← hk']
      exact hadds.toValid
    · rw [hlog]
      exact hparts.imp fun _ _ hq => hkept _ hadds.kept hq
    · rw [hlog]
      exact hnew

end Recorded

end ProcessCalculus
