import ProcessCalculus.Proofs.Transition.KnownSteps
import ProcessCalculus.Proofs.Transition.Steady

/-!
# Saturation above any generator

A stage that saturates is asked for transitions and for silent closures, in any order and above any generator that is
steady. Its replies are exactly the saturated steps and silent closures of what the generator answered. A request fails
if the generator fails at a process that has to be looked at, and only then, unless a silent closure has more processes
than the limit.

* `Saturation.Request`, `Saturation.respond`: what the stage is asked, and how it responds.
* `Saturation.IsRight`: what a response should be.
* `Saturation.ends_silentClosure_above`, `Saturation.ends_successors_above`: the two kinds of requests.
* `Saturation.respond_isRight`: all responses in a sequence of requests.
-/

namespace ProcessCalculus

open KnownTransitions Recorded

namespace Saturation

/-- What a stage that saturates can be asked for. -/
inductive Request
  | transitions (id : ProcessId)
  | closure (id : ProcessId)

/-- What it replies. -/
inductive Reply
  | transitions (ts : Transitions)
  | closure (ids : List ProcessId)

/-- The response of the stage to a request. -/
def respond {σ : Type} (limit : Nat) (inner : Generator σ) : Request → Pass (Saturation × σ) Reply
  | .transitions id => Reply.transitions <$> successors limit inner id
  | .closure id => Reply.closure <$> silentClosure limit inner id

/-- The processes that a request has to look at. -/
def Request.Visits (known : KnownTransitions) : Request → ProcessId → Prop
  | transitions id => known.Visited id
  | closure id => known.Reaches id

/-- The reply says what is known. -/
inductive Request.Replied (known : KnownTransitions) : Request → Reply → Prop
  | transitions {id : ProcessId} {ts : Transitions} (h : known.IsSaturation id ts) :
      Replied known (.transitions id) (.transitions ts)
  | closure {id : ProcessId} {ids : List ProcessId} (h : known.IsClosure id ids) :
      Replied known (.closure id) (.closure ids)

/-- The generator below has failed with the fault `e` at a process that had to be looked at, and not before. -/
def FaultBelow (visits : ProcessId → Prop) (part : Log ProcessId Fault Transitions) (e : Fault) : Prop :=
  ∃ front x, part = front ++ [(x, .error e)] ∧ Log.Succeeds front ∧ visits x

/-- Why a request fails with the fault `e` that asked `part` of the generator below: the generator has failed at a
process that the request has to look at, or such a process has a silent closure that is too large. -/
def Failure (limit : Nat) (known : KnownTransitions) (visits : ProcessId → Prop)
    (part : Log ProcessId Fault Transitions) (e : Fault) : Prop :=
  FaultBelow visits part e ∨ e = .searchExhausted ∧ Log.Succeeds part ∧ ∃ x, visits x ∧ ¬ known.ReachesAtMost limit x

/-- What the response to a request should be that asked `part` of the generator below. -/
def IsRight (limit : Nat) (known : KnownTransitions) (response : Request × Except Fault Reply)
    (part : Log ProcessId Fault Transitions) : Prop :=
  match response with
  | (request, .ok reply) => request.Replied known reply ∧ Log.Succeeds part
  | (request, .error e) => Failure limit known (request.Visits known) part e

theorem Request.Visits.kept {known known' : KnownTransitions} {request : Request} {x : ProcessId}
    (h : request.Visits known x) (hk : known.Kept known') : request.Visits known' x := by
  cases request with
  | transitions id =>
    rcases h with h | ⟨a, h⟩
    · exact .inl (h.kept hk)
    · exact .inr ⟨a, h.kept hk⟩
  | closure id => exact Reaches.kept h hk

theorem Request.Replied.kept {known known' : KnownTransitions} {request : Request} {reply : Reply}
    (h : request.Replied known reply) (hk : known.Kept known') : request.Replied known' reply := by
  cases h with
  | transitions h => exact .transitions (h.kept hk)
  | closure h => exact .closure (h.kept hk)

/-- What becomes known later does not make a response wrong. -/
theorem IsRight.kept {known known' : KnownTransitions} {limit : Nat} {response : Request × Except Fault Reply}
    {part : Log ProcessId Fault Transitions} (h : IsRight limit known response part) (hk : known.Kept known') :
    IsRight limit known' response part := by
  obtain ⟨request, e | reply⟩ := response
  · rcases h with ⟨front, x, hpart, hfront, hx⟩ | ⟨he, hpart, x, hx, hmany⟩
    · exact .inl ⟨front, x, hpart, hfront, hx.kept hk⟩
    · exact .inr ⟨he, hpart, x, hx.kept hk, fun hfew => hmany (hfew.of_kept hk)⟩
  · exact ⟨h.1.kept hk, h.2⟩

/-- If silent steps stay below the limit, as identifiers of 32 bits stay below `identifierCount`, a request fails only
where the generator does. -/
theorem Failure.faultBelow {known : KnownTransitions} {limit : Nat} {visits : ProcessId → Prop}
    {part : Log ProcessId Fault Transitions} {e : Fault} (h : Failure limit known visits part e)
    (hlt : ∀ x y, visits x → known.Reaches x y → y < limit) : FaultBelow visits part e :=
  h.resolve_right fun ⟨_, _, x, hx, hmany⟩ => hmany (.of_lt fun y => hlt x y hx)

/-- The notes of the stage are silent closures and saturated steps of what is known. -/
structure Records (known : KnownTransitions) (n : Saturation) : Prop where
  closures {id : ProcessId} {closure : List ProcessId} : n.closures[id]? = some closure → known.IsClosure id closure
  answers {id : ProcessId} {ts : Transitions} : n.known[id]? = some ts → known.IsSaturation id ts

variable {known known' : KnownTransitions} {n : Saturation} {id x : ProcessId} {limit : Nat}

namespace Records

theorem empty (known : KnownTransitions) : Records known ∅ where
  closures h := by
    rw [show (∅ : Saturation).closures[_]? = none from Std.TreeMap.getElem?_emptyc] at h
    cases h
  answers h := by
    rw [show (∅ : Saturation).known[_]? = none from Std.TreeMap.getElem?_emptyc] at h
    cases h

theorem kept (hk : known.Kept known') (h : Records known n) : Records known' n where
  closures hc := (h.closures hc).kept hk
  answers ha := (h.answers ha).kept hk

theorem insertClosure {closure : List ProcessId} (h : Records known n) (hc : known.IsClosure id closure) :
    Records known { n with closures := n.closures.insert id closure } where
  closures {other c} ho := by
    rw [Table.getElem?_insert] at ho
    split at ho
    · rename_i hid
      cases ho
      exact hid ▸ hc
    · exact h.closures ho
  answers := h.answers

theorem insertAnswer {ts : Transitions} (h : Records known n) (hts : known.IsSaturation id ts) :
    Records known { n with known := n.known.insert id ts } where
  closures := h.closures
  answers {other us} ho := by
    rw [Table.getElem?_insert] at ho
    split at ho
    · rename_i hid
      cases ho
      exact hid ▸ hts
    · exact h.answers ho

end Records

variable {σ : Type} {inner : Generator σ} {s : Program × σ} {k k' k₀ : Recorded Saturation σ} {e : Fault}
  {t : Program × (Saturation × σ)} {visits visits' : KnownTransitions → ProcessId → Prop}

/-- A part of the stage fails that was started in the state `k`. -/
def FailsFrom (inner : Generator σ) (s : Program × σ) (limit : Nat) (visits : KnownTransitions → ProcessId → Prop)
    (k : Recorded Saturation σ) (e : Fault) (t : Program × (Saturation × σ)) : Prop :=
  ∃ k' part, k'.2 = t ∧ Adds inner s Records part k k' ∧ Failure limit k'.known (visits k'.known) part e

namespace FailsFrom

/-- What fails after a part that succeeded. -/
theorem of_later (hk : Advances inner s Records k₀ k) (h : FailsFrom inner s limit visits k e t) :
    FailsFrom inner s limit visits k₀ e t := by
  obtain ⟨before, hadds, hbefore⟩ := hk
  obtain ⟨k', part, rfl, hadds', hfails⟩ := h
  refine ⟨k', before ++ part, rfl, ⟨hadds'.toValid, ?_⟩, ?_⟩
  · rw [hadds'.log_eq, hadds.log_eq, List.append_assoc]
  · rcases hfails with ⟨front, x, rfl, hfront, hx⟩ | ⟨he, hpart, hx⟩
    · exact .inl ⟨before ++ front, x, by rw [List.append_assoc], hbefore.append hfront, hx⟩
    · exact .inr ⟨he, hbefore.append hpart, hx⟩

theorem mono (h : FailsFrom inner s limit visits k e t)
    (hvisits : ∀ known x, k.known.Kept known → visits known x → visits' known x) :
    FailsFrom inner s limit visits' k e t := by
  obtain ⟨k', part, rfl, hadds, hfails⟩ := h
  refine ⟨k', part, rfl, hadds, ?_⟩
  rcases hfails with ⟨front, x, hpart, hfront, hx⟩ | ⟨he, hpart, x, hx, hmany⟩
  · exact .inl ⟨front, x, hpart, hfront, hvisits _ x hadds.kept hx⟩
  · exact .inr ⟨he, hpart, x, hvisits _ x hadds.kept hx, hmany⟩

/-- The generator below fails. -/
theorem of_inner (hk : Advances inner s Records k₀ k) (hx : ∀ known, k.known.Kept known → visits known x)
    (h : ∃ k' : Recorded Saturation σ, k'.2 = t ∧ Adds inner s Records [(x, .error e)] k k') :
    FailsFrom inner s limit visits k₀ e t := by
  obtain ⟨k', rfl, hadds⟩ := h
  exact of_later hk ⟨k', _, rfl, hadds, .inl ⟨[], x, rfl, .nil, hx _ hadds.kept⟩⟩

/-- A search is given up. -/
theorem of_exceeds (hk : Advances inner s Records k₀ k) (hx : visits k.known x) (hmany : k.known.ExceedsFrom limit x) :
    FailsFrom inner s limit visits k₀ .searchExhausted k.2 := by
  obtain ⟨part, hadds, hpart⟩ := hk
  exact ⟨k, part, rfl, hadds, .inr ⟨rfl, hpart, x, hx, fun hfew => hfew.not_exceedsFrom hmany⟩⟩

end FailsFrom

section Above

variable (hsteady : inner.Steady s)

include hsteady

/-- A silent closure, above any steady generator. -/
theorem ends_silentClosure_above (hk : Valid inner s Records k) (id : ProcessId) :
    Ends (silentClosure limit inner id) k.2
      (fun closure t => ∃ k', k'.2 = t ∧ Advances inner s Records k k' ∧ k'.known.IsClosure id closure)
      fun e t => FailsFrom inner s limit (fun known => known.Reaches id) k e t := by
  obtain ⟨log, p, n, m⟩ := k
  unfold silentClosure
  rw [ends_bind, ends_notes]
  split
  · rename_i closure hc
    exact ⟨_, rfl, .refl hk, hk.notes.closures hc⟩
  · dsimp only
    rw [ends_bind]
    refine (Search.ends_run (w := Prod.snd) (K := Recorded.known) (I := Advances inner s Records (log, p, n, m))
      (F := fun _ _ _ => True) ?_ ?_ (.refl hk) trivial (.start _ _) (Nat.zero_add limit)).mono ?_ fun _ _ h => h
    · intro k' _ seen x hk' _ hx
      rw [ends_bind]
      refine (ends_question (N := Records) hsteady (fun _ _ _ hkept => Records.kept hkept) hk'.valid x).mono ?_ ?_
      · rintro ts _ ⟨k'', rfl, hk'', -, us, hus, hlist⟩
        refine ⟨k'', us, rfl, hk'.trans hk'', hk''.kept, hus, ?_, trivial⟩
        simp only [silentTargets, Transitions.targets, Transitions.withAction, hlist]
      · rintro e _ ⟨k'', rfl, hadds, -⟩
        exact .of_inner hk' (fun _ hkept => hx.kept hkept) ⟨k'', rfl, hadds⟩
    · exact fun k' hk' hmany => .of_exceeds hk' .refl hmany
    · rintro ⟨seen, _⟩ _ ⟨⟨log', p', n', m'⟩, rfl, hk', hp, -⟩
      rw [ends_bind, ends_modifyNotes, ends_pure]
      have hc := KnownTransitions.IsClosure.of_progress hp
      obtain ⟨part, hadds, hpart⟩ := hk'
      exact ⟨(log', p', _, m'), rfl, ⟨part, ⟨⟨hadds.asked, hadds.notes.insertClosure hc⟩, hadds.log_eq⟩, hpart⟩, hc⟩

variable {root : ProcessId} {found : Transitions}

/-- A saturated step is added with all silent steps after it. -/
theorem ends_addSaturated_above {step : Transition} (hk : Valid inner s Records k)
    (hf : ∀ t ∈ found, k.known.Saturated root t.action t.target)
    (hstep : k.known.Saturated root step.action step.target) :
    Ends (addSaturated limit inner found step) k.2
      (fun found' t => ∃ k', k'.2 = t ∧ Advances inner s Records k k' ∧
        (∀ t ∈ found', k'.known.Saturated root t.action t.target) ∧ (∀ t ∈ found, t ∈ found') ∧
        k'.known.Covers found' step)
      fun e t => FailsFrom inner s limit (fun known => known.Visited root) k e t := by
  unfold addSaturated
  rw [ends_bind]
  refine (ends_silentClosure_above hsteady hk step.target).mono ?_ ?_
  · rintro closure _ ⟨k', rfl, hk', hc⟩
    rw [ends_pure]
    have hstep' := hstep.kept hk'.kept
    refine ⟨k', rfl, hk', fun t ht => ?_, fun t ht => TreapSet.mem_insertMany.2 (.inr ht), closure, hc, fun x hx => ?_⟩
    · rcases TreapSet.mem_insertMany.1 ht with ht | ht
      · obtain ⟨x, hx, rfl⟩ := List.mem_map.1 ht
        exact hstep'.trans (hc.mem_iff.1 hx)
      · exact (hf t ht).kept hk'.kept
    · exact TreapSet.mem_insertMany.2 (.inl (List.mem_map_of_mem hx))
  · exact fun e t h => h.mono fun known x hkept hx => .inr ⟨_, (hstep.kept hkept).trans hx⟩

/-- All saturated steps of a list are added. -/
theorem ends_addAll_above {steps : List Transition} (hk : Valid inner s Records k)
    (hf : ∀ t ∈ found, k.known.Saturated root t.action t.target)
    (hsteps : ∀ t ∈ steps, k.known.Saturated root t.action t.target) :
    Ends (steps.foldlM (addSaturated limit inner) found) k.2
      (fun found' t => ∃ k', k'.2 = t ∧ Advances inner s Records k k' ∧
        (∀ t ∈ found', k'.known.Saturated root t.action t.target) ∧ (∀ t ∈ steps, k'.known.Covers found' t) ∧
        ∀ t, k.known.Covers found t → k'.known.Covers found' t)
      fun e t => FailsFrom inner s limit (fun known => known.Visited root) k e t := by
  refine (Ends.foldlM (w := Prod.snd)
    (I := fun (k' : Recorded Saturation σ) found' =>
      Advances inner s Records k k' ∧ ∀ t ∈ found', k'.known.Saturated root t.action t.target)
    (P := fun (k' : Recorded Saturation σ) found' t => k'.known.Covers found' t)
    (fun t ht k' found' hk' => ?_) ⟨.refl hk, hf⟩).mono ?_ fun _ _ h => h
  · obtain ⟨hl, hf'⟩ := hk'
    refine (ends_addSaturated_above hsteady hl.valid hf' ((hsteps t ht).kept hl.kept)).mono ?_
      fun _ _ h => h.of_later hl
    rintro found'' _ ⟨k'', rfl, hl', hf'', hsub, hcovers⟩
    exact ⟨k'', rfl, ⟨hl.trans hl', hf''⟩, hcovers, fun _ hc => hc.kept hl'.kept hsub⟩
  · rintro found' _ ⟨k', rfl, ⟨hl, hf'⟩, hcovers, hkept⟩
    exact ⟨k', rfl, hl, hf', hcovers, hkept⟩

/-- A visit adds what a process contributes to the saturated steps of the root. -/
theorem ends_saturate_above {seen : ProcessSet} (hk : Advances inner s Records k₀ k)
    (hf : k.known.Found root found seen) (hx : k.known.Reaches root x) :
    Ends (saturate limit inner found x) k.2
      (fun a t => ∃ k' us, k'.2 = t ∧ Advances inner s Records k₀ k' ∧ k.known.Kept k'.known ∧ k'.known[x]? = some us ∧
        a.1 = silentTargets us ∧ k'.known.Found root a.2 (seen.insert x))
      fun e t => FailsFrom inner s limit (fun known => known.Visited root) k₀ e t := by
  unfold saturate
  rw [ends_bind]
  refine (ends_question (N := Records) hsteady (fun _ _ _ hkept => Records.kept hkept) hk.valid x).mono ?_ ?_
  · rintro ts _ ⟨k₁, rfl, hk₁, -, us, hus, hlist⟩
    have hsteps (t : Transition) (ht : t ∈ ts.toList.filter fun t => !t.action.isSilent) :
        k₁.known.Saturated root t.action t.target := by
      obtain ⟨ht, hvisible⟩ := List.mem_filter.1 ht
      refine ⟨fun ha => ?_, x, t.target, hx.kept hk₁.kept, ⟨us, hus, ?_⟩, .refl⟩
      · rw [ha] at hvisible
        cases hvisible
      · rwa [TreapSet.mem_def, hlist]
    rw [ends_bind]
    refine (ends_addAll_above hsteady hk₁.valid (fun t ht => (hf.saturated ht).kept hk₁.kept) hsteps).mono ?_
      fun _ _ h => h.of_later (hk.trans hk₁)
    rintro found' _ ⟨k₂, rfl, hk₂, hf', hcovers, hkept⟩
    rw [ends_pure]
    refine ⟨k₂, us, rfl, (hk.trans hk₁).trans hk₂, hk₁.kept.trans hk₂.kept, hk₂.kept x us hus, ?_, fun ht => hf' _ ht,
      fun hy => ?_⟩
    · simp only [silentTargets, Transitions.targets, Transitions.withAction, hlist]
    · rcases TreapSet.mem_insert.1 hy with rfl | hy
      · refine ⟨us, hk₂.kept _ us hus, fun t ht hvisible => hcovers t (List.mem_filter.2 ⟨?_, ?_⟩)⟩
        · rwa [← hlist, ← TreapSet.mem_def]
        · cases ha : t.action with
          | silent => exact absurd ha hvisible
          | visible | delay => rfl
      · -- what was found earlier is still there
        obtain ⟨us', hus', hold⟩ := hf.covers hy
        refine ⟨us', hk₂.kept _ us' (hk₁.kept _ us' hus'), fun t ht hvisible => hkept t ?_⟩
        exact (hold t ht hvisible).kept hk₁.kept fun _ ht => ht
  · rintro e _ ⟨k', rfl, hadds, -⟩
    exact .of_inner hk (fun _ hkept => .inl (hx.kept hkept)) ⟨k', rfl, hadds⟩

/-- The saturated transitions of a process, above any steady generator. -/
theorem ends_successors_above (hk : Valid inner s Records k) (id : ProcessId) :
    Ends (successors limit inner id) k.2
      (fun ts t => ∃ k', k'.2 = t ∧ Advances inner s Records k k' ∧ k'.known.IsSaturation id ts)
      fun e t => FailsFrom inner s limit (fun known => known.Visited id) k e t := by
  obtain ⟨log, p, n, m⟩ := k
  unfold successors
  rw [ends_bind, ends_notes]
  split
  · rename_i ts hts
    exact ⟨_, rfl, .refl hk, hk.notes.answers hts⟩
  · rw [ends_bind]
    refine (Search.ends_run (w := Prod.snd) (K := Recorded.known) (I := Advances inner s Records (log, p, n, m))
      (F := fun (k' : Recorded Saturation σ) found seen => k'.known.Found id found seen) ?_ ?_ (.refl hk) ?_
      (.start _ _) (Nat.zero_add limit)).mono ?_ fun _ _ h => h
    · exact fun k' found seen x hk' hf hx => ends_saturate_above hsteady hk' hf hx
    · exact fun k' hk' hmany => .of_exceeds hk' (.inl .refl) hmany
    · exact ⟨fun ht => absurd ht TreapSet.not_mem_empty, fun hx => absurd hx TreapSet.not_mem_empty⟩
    · rintro ⟨seen, found⟩ _ ⟨⟨log', p', n', m'⟩, rfl, hk', hp, hf⟩
      rw [ends_bind, ends_modifyNotes, ends_pure]
      have hts := KnownTransitions.IsSaturation.of_progress hp hf
      obtain ⟨part, hadds, hpart⟩ := hk'
      exact ⟨(log', p', _, m'), rfl, ⟨part, ⟨⟨hadds.asked, hadds.notes.insertAnswer hts⟩, hadds.log_eq⟩, hpart⟩, hts⟩

/-- A request of either kind. -/
theorem ends_respond (hk : Valid inner s Records k) (request : Request) :
    Ends (respond limit inner request) k.2
      (fun reply t => ∃ k', k'.2 = t ∧ Advances inner s Records k k' ∧ request.Replied k'.known reply)
      fun e t => FailsFrom inner s limit (fun known => request.Visits known) k e t := by
  cases request with
  | transitions id =>
    rw [respond, ends_map]
    refine (ends_successors_above hsteady hk id).mono ?_ fun _ _ h => h
    rintro ts _ ⟨k', rfl, hk', hts⟩
    exact ⟨k', rfl, hk', .transitions hts⟩
  | closure id =>
    rw [respond, ends_map]
    refine (ends_silentClosure_above hsteady hk id).mono ?_ fun _ _ h => h
    rintro closure _ ⟨k', rfl, hk', hc⟩
    exact ⟨k', rfl, hk', .closure hc⟩

/-- A request of either kind, however it ends. -/
theorem exists_respond (hk : Valid inner s Records k) (request : Request) :
    ∃ k' part, k'.2 = after (respond limit inner request) k.2 ∧ Adds inner s Records part k k' ∧
      IsRight limit k'.known (request, answer (respond limit inner request) k.2) part := by
  rcases answered_of_ends (ends_respond hsteady hk request) with
    ⟨reply, hreply, k', hk', ⟨part, hadds, hpart⟩, hright⟩ | ⟨e, he, k', part, hk', hadds, hfails⟩
  · rw [hreply]
    exact ⟨k', part, hk', hadds, hright, hpart⟩
  · rw [he]
    exact ⟨k', part, hk', hadds, hfails⟩

end Above

/-- A stage that saturates, above any steady generator, is asked for transitions and closures in any order. The
questions that it puts to the generator fall into one part for each request. All replies are saturated steps and silent
closures of the answers among them. A request fails exactly if the generator fails in its part, at a process that the
request has to look at, unless such a process has a silent closure of more than `limit` processes. There is none if
identifiers stay below the limit. -/
theorem respond_isRight {p : Program} {m : σ} {log : Log Request Fault Reply} {t : Program × (Saturation × σ)}
    (hsteady : inner.Steady (p, m)) (h : Asked (respond limit inner) (p, ∅, m) log t) :
    ∃ parts : List (Log ProcessId Fault Transitions), Asked inner (p, m) parts.flatten (t.1, t.2.2) ∧
      List.Forall₂ (IsRight limit (ofLog parts.flatten)) log parts ∧
      List.Forall₂ (fun response part => ∀ e, response.2 = .error e →
        (∀ x y, response.1.Visits (ofLog parts.flatten) x → (ofLog parts.flatten).Reaches x y → y < limit) →
          FaultBelow (response.1.Visits (ofLog parts.flatten)) part e) log parts := by
  obtain ⟨parts, hvalid, hright⟩ := exists_parts (N := fun _ => Records) (R := fun _ => IsRight limit) (.empty _)
    (fun _ _ _ _ _ _ hk hq => hq.kept hk) (fun _ _ request hk => exists_respond hsteady hk request) h
  refine ⟨parts, hvalid.asked, hright, hright.imp ?_⟩
  rintro ⟨request, _⟩ part hpart e rfl hlt
  exact Failure.faultBelow hpart hlt

/-- The definitions `P = τ.Q + a.0` and `Q = τ.P`. -/
private def silentCycle : Program :=
  let p := (Program.mention ∅ "P").2
  let p := (p.mention "Q").2
  let p := (p.add .null).2
  let p := (p.add (.act (.visible "a" .input) 2)).2
  let p := (p.add (.act .silent 1)).2
  let p := (p.add (.sum 4 3)).2
  let p := (p.add (.act .silent 0)).2
  after (Program.define "Q" 6) (after (Program.define "P" 5) p)

/-- Both processes of the cycle are in the silent closure of `Q`, so `Q` can do what `P` can. -/
theorem respond_isRight_silentCycle :
    let f := respond identifierCount Expansion.successors
    let s : Program × (Saturation × Expansion) := (silentCycle, ∅, ∅)
    Expansion.successors.Steady (silentCycle, ∅) ∧
      ∃ ts t parts, Asked f s [(.closure 1, .ok (.closure [0, 1])), (.transitions 1, .ok (.transitions ts))] t ∧
        ts.toList = [⟨.visible "a" .input, 2⟩] ∧
        List.Forall₂ (IsRight identifierCount (ofLog parts.flatten))
          [(.closure 1, .ok (.closure [0, 1])), (.transitions 1, .ok (.transitions ts))] parts := by
  intro f s
  have heval : (match f (.closure 1) s with
      | .ok (.closure ids) t => match f (.transitions 1) t with
        | .ok (.transitions ts) _ => decide (ids = [0, 1] ∧ ts.toList = [⟨.visible "a" .input, 2⟩])
        | _ => false
      | _ => false) = true := by
    decide +kernel
  split at heval
  case h_2 => cases heval
  rename_i ids t₁ h₁
  split at heval
  case h_2 => cases heval
  rename_i ts t h₂
  obtain ⟨rfl, hts⟩ := of_decide_eq_true heval
  have hasked : Asked f s [(.closure 1, .ok (.closure [0, 1])), (.transitions 1, .ok (.transitions ts))] t :=
    (Asked.nil.snoc_ok h₁).snoc_ok h₂
  have hsteady : Expansion.successors.Steady (silentCycle, ∅) := Expansion.steady _
  obtain ⟨parts, -, hright, -⟩ := respond_isRight hsteady hasked
  exact ⟨hsteady, ts, t, parts, hasked, hts, hright⟩

end Saturation

end ProcessCalculus
