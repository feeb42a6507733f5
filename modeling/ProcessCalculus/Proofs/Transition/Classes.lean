import ProcessCalculus.Proofs.Transition.Steady

/-!
# Transitions between classes above any generator

A stage that merges the processes of classes keeps its answers under representatives. Whatever the classes are, its
first answer for a representative is the one it gives from then on: exactly the steps of the members that the class of
the process asked first lists, between representatives.

* `Classes.IsMerged`: the transitions of a class.
* `Classes.firstAnswer`: the first answer for a representative.
* `Classes.IsRight`: what a response should be.
* `Classes.ends_successors_above`: one question to the stage.
* `Classes.exists_parts`: any sequence of questions.
* `Classes.answers_first`: what all answers are, for any classes.
* `Classes.answer_sharedRepresentative`: why the class of the process itself does not always decide.
-/

namespace ProcessCalculus

open KnownTransitions Recorded

namespace Classes

variable {classOf : ProcessId → ProcessClass}

/-- The steps of all members of a class, between representatives, where all members are answered. -/
structure IsMerged (classOf : ProcessId → ProcessClass) (known : KnownTransitions) (c : ProcessClass)
    (ts : Transitions) : Prop where
  mem_iff {t : Transition} : t ∈ ts ↔
    ∃ m ∈ c.members, ∃ x, known.Step m t.action x ∧ t.target = (classOf x).representative
  exists_answer {m : ProcessId} : m ∈ c.members → ∃ us, known[m]? = some us

/-- The first answer in a log for a process with this representative, and that process. -/
def firstAnswer (classOf : ProcessId → ProcessClass) (log : Log ProcessId Fault Transitions) (r : ProcessId) :
    Option (ProcessId × Transitions) :=
  log.findSome? fun
    | (id, .ok ts) => if (classOf id).representative = r then some (id, ts) else none
    | (_, .error _) => none

/-- Why a question for a process fails with the fault `e` that asked `part` of the generator below: that generator has
failed at a member of the class, or a class does not list its process. -/
def Failure (classOf : ProcessId → ProcessClass) (id : ProcessId) (part : Log ProcessId Fault Transitions) (e : Fault) :
    Prop :=
  (∃ front x, part = front ++ [(x, .error e)] ∧ Log.Succeeds front ∧ x ∈ (classOf id).members) ∨
    Log.Succeeds part ∧ ∃ y, (classOf y).contains y = false ∧ e = .inconsistentClass y (classOf y).representative

/-- What the stage should respond, as part of the log of all its responses, where it asked `part` of the generator
below. -/
def IsRight (classOf : ProcessId → ProcessClass) (log : Log ProcessId Fault Transitions) (known : KnownTransitions)
    (response : ProcessId × Except Fault Transitions) (part : Log ProcessId Fault Transitions) : Prop :=
  match response with
  | (id, .ok ts) => Log.Succeeds part ∧ (classOf id).contains id = true ∧
    ∃ first, firstAnswer classOf log (classOf id).representative = some (first, ts) ∧
      (classOf first).contains first = true ∧ IsMerged classOf known (classOf first) ts
  | (id, .error e) => Failure classOf id part e

variable {known known' : KnownTransitions} {log part : Log ProcessId Fault Transitions} {id r x y : ProcessId}
  {c : ProcessClass} {ts : Transitions} {e : Fault} {first : ProcessId}

theorem IsMerged.kept (h : IsMerged classOf known c ts) (hk : known.Kept known') : IsMerged classOf known' c ts where
  mem_iff {t} := by
    rw [h.mem_iff]
    constructor
    · rintro ⟨m, hm, x, hx, ht⟩
      exact ⟨m, hm, x, hx.kept hk, ht⟩
    · rintro ⟨m, hm, x, hx, ht⟩
      exact ⟨m, hm, x, hx.of_kept hk (h.exists_answer hm), ht⟩
  exists_answer hm := by
    obtain ⟨us, hus⟩ := h.exists_answer hm
    exact ⟨us, hk _ us hus⟩

theorem IsMerged.congr {c' : ProcessClass} (h : IsMerged classOf known c ts)
    (hmem : ∀ m, m ∈ c.members ↔ m ∈ c'.members) : IsMerged classOf known c' ts where
  mem_iff {t} := by
    simp only [← hmem]
    exact h.mem_iff
  exists_answer hm := h.exists_answer ((hmem _).2 hm)

/-- If the generator below answers as a function says, so does the stage. -/
theorem IsMerged.mem_iff_given (h : IsMerged classOf known c ts) {given : ProcessId → Transitions}
    (hgiven : ∀ x us, known[x]? = some us → us.toList = (given x).toList) {t : Transition} :
    t ∈ ts ↔ ∃ m ∈ c.members, ∃ x, ⟨t.action, x⟩ ∈ given m ∧ t.target = (classOf x).representative := by
  rw [h.mem_iff]
  refine exists_congr fun m => and_congr_right fun hm => exists_congr fun x => and_congr_left fun _ => ?_
  obtain ⟨us, hus⟩ := h.exists_answer hm
  constructor
  · rintro ⟨us', hus', hx⟩
    rwa [TreapSet.mem_def, ← hgiven m us' hus', ← TreapSet.mem_def]
  · intro hx
    rw [TreapSet.mem_def, ← hgiven m us hus, ← TreapSet.mem_def] at hx
    exact ⟨us, hus, hx⟩

section FirstAnswer

theorem firstAnswer_append {later : Log ProcessId Fault Transitions}
    (h : firstAnswer classOf log r = some (first, ts)) : firstAnswer classOf (log ++ later) r = some (first, ts) := by
  unfold firstAnswer at *
  rw [List.findSome?_append, h, Option.some_or]

theorem firstAnswer_snoc_error :
    firstAnswer classOf (log ++ [(id, .error e)]) r = firstAnswer classOf log r := by
  simp [firstAnswer, List.findSome?_append]

theorem firstAnswer_snoc_ok (hnew : firstAnswer classOf log r = none) :
    firstAnswer classOf (log ++ [(id, .ok ts)]) r =
      if (classOf id).representative = r then some (id, ts) else none := by
  unfold firstAnswer at *
  rw [List.findSome?_append, hnew, Option.none_or, List.findSome?_singleton]

theorem representative_of_firstAnswer (h : firstAnswer classOf log r = some (first, ts)) :
    (first, .ok ts) ∈ log ∧ (classOf first).representative = r := by
  obtain ⟨⟨id, e | us⟩, hmem, hq⟩ := List.exists_of_findSome?_eq_some h
  · cases hq
  · simp only at hq
    split at hq
    · cases hq
      exact ⟨hmem, by assumption⟩
    · cases hq

end FirstAnswer

/-- The notes of the stage are the first answers, and each of them is that of the class of the process asked first. -/
structure Records (classOf : ProcessId → ProcessClass) (log : Log ProcessId Fault Transitions)
    (known n : KnownTransitions) : Prop where
  getElem?_eq (r : ProcessId) : n[r]? = (firstAnswer classOf log r).map Prod.snd
  merged {r first : ProcessId} {ts : Transitions} : firstAnswer classOf log r = some (first, ts) →
    (classOf first).contains first = true ∧ IsMerged classOf known (classOf first) ts

namespace Records

variable {n : KnownTransitions}

theorem kept (h : Records classOf log known n) (hk : known.Kept known') : Records classOf log known' n where
  getElem?_eq := h.getElem?_eq
  merged hfirst := (h.merged hfirst).imp_right fun hmerged => hmerged.kept hk

/-- A question that fails leaves everything as it is. -/
theorem snoc_error (h : Records classOf log known n) (hk : known.Kept known') :
    Records classOf (log ++ [(id, .error e)]) known' n where
  getElem?_eq r := by
    rw [firstAnswer_snoc_error]
    exact h.getElem?_eq r
  merged hfirst := (h.kept hk).merged (firstAnswer_snoc_error ▸ hfirst)

/-- A question for a representative that was asked before has the answer that is noted. -/
theorem snoc_known (h : Records classOf log known n) (hts : n[(classOf id).representative]? = some ts) :
    Records classOf (log ++ [(id, .ok ts)]) known n := by
  have hfirst (r : ProcessId) : firstAnswer classOf (log ++ [(id, .ok ts)]) r = firstAnswer classOf log r := by
    cases hr : firstAnswer classOf log r with
    | some q => exact firstAnswer_append hr
    | none =>
      rw [firstAnswer_snoc_ok hr, if_neg]
      rintro rfl
      rw [h.getElem?_eq, hr] at hts
      cases hts
  constructor
  · intro r
    rw [hfirst]
    exact h.getElem?_eq r
  · intro r first us hus
    exact h.merged (hfirst r ▸ hus)

/-- The first answer for a representative is noted. -/
theorem snoc_new (h : Records classOf log known n) (hk : known.Kept known')
    (hnew : n[(classOf id).representative]? = none) (hid : (classOf id).contains id = true)
    (hts : IsMerged classOf known' (classOf id) ts) :
    Records classOf (log ++ [(id, .ok ts)]) known' (n.insert (classOf id).representative ts) := by
  have hfirst (r : ProcessId) : firstAnswer classOf (log ++ [(id, .ok ts)]) r =
      if (classOf id).representative = r then some (id, ts) else firstAnswer classOf log r := by
    cases hr : firstAnswer classOf log r with
    | none => exact firstAnswer_snoc_ok hr
    | some q =>
      rw [firstAnswer_append hr, if_neg]
      rintro rfl
      rw [h.getElem?_eq, hr] at hnew
      cases hnew
  constructor
  · intro r
    rw [hfirst, Table.getElem?_insert, h.getElem?_eq]
    split <;> rfl
  · intro r first us hus
    rw [hfirst] at hus
    split at hus
    · cases hus
      exact ⟨hid, hts⟩
    · exact (h.kept hk).merged hus

end Records

/-! ### One question -/

/-- The notes of the stage are `n`, whatever is known. -/
def Unchanged (n : KnownTransitions) (_ n' : KnownTransitions) : Prop :=
  n' = n

/-- The transition between representatives. -/
def merge (classOf : ProcessId → ProcessClass) (t : Transition) : Transition :=
  ⟨t.action, (classOf t.target).representative⟩

theorem mapM_represent (classOf : ProcessId → ProcessClass) (ts : List Transition) :
    ts.mapM (represent classOf) = .ok (ts.map (merge classOf)) ∨
      ∃ y, (classOf y).contains y = false ∧
        ts.mapM (represent classOf) = .error (.inconsistentClass y (classOf y).representative) := by
  induction ts with
  | nil => exact .inl rfl
  | cons t ts ih =>
    rw [List.mapM_cons, represent, classFor]
    cases ht : (classOf t.target).contains t.target with
    | false => exact .inr ⟨t.target, ht, rfl⟩
    | true =>
      rcases ih with ih | ⟨y, hy, ih⟩
      · refine .inl ?_
        rw [ih]
        rfl
      · refine .inr ⟨y, hy, ?_⟩
        rw [ih]
        rfl

variable {σ : Type} {inner : Generator σ} {s : Program × σ} {n : KnownTransitions} {k k₀ : Recorded KnownTransitions σ}
  {t : Program × (KnownTransitions × σ)}

/-- A question for `id` fails that was put in the state `k`. The notes of the stage are as before. -/
def FailsFrom (classOf : ProcessId → ProcessClass) (inner : Generator σ) (s : Program × σ) (id : ProcessId)
    (k : Recorded KnownTransitions σ) (e : Fault) (t : Program × (KnownTransitions × σ)) : Prop :=
  ∃ k' part, k'.2 = t ∧ Adds inner s (Unchanged k.2.2.1) part k k' ∧ Failure classOf id part e

theorem FailsFrom.of_later (hk : Advances inner s (Unchanged k₀.2.2.1) k₀ k) (h : FailsFrom classOf inner s id k e t) :
    FailsFrom classOf inner s id k₀ e t := by
  have hnotes : k.2.2.1 = k₀.2.2.1 := hk.valid.notes
  obtain ⟨before, hbefore, hsucceeds⟩ := hk
  obtain ⟨k', part, rfl, hadds, hfails⟩ := h
  refine ⟨k', before ++ part, rfl, ⟨⟨hadds.asked, hadds.notes.trans hnotes⟩, ?_⟩, ?_⟩
  · rw [hadds.log_eq, hbefore.log_eq, List.append_assoc]
  · rcases hfails with ⟨front, x, rfl, hfront, hx⟩ | ⟨hpart, hy⟩
    · exact .inl ⟨before ++ front, x, by rw [List.append_assoc], hsucceeds.append hfront, hx⟩
    · exact .inr ⟨hsucceeds.append hpart, hy⟩

section Above

variable (hsteady : inner.Steady s)

include hsteady

/-- The steps of one member. -/
theorem ends_memberSteps (hk : Valid inner s (Unchanged k.2.2.1) k) {m : ProcessId} (hm : m ∈ (classOf id).members) :
    Ends (memberSteps classOf inner m) k.2
      (fun steps t => ∃ k', k'.2 = t ∧ Advances inner s (Unchanged k.2.2.1) k k' ∧
        ∃ us, k'.known[m]? = some us ∧ steps = us.toList.map (merge classOf))
      fun e t => FailsFrom classOf inner s id k e t := by
  unfold memberSteps
  rw [ends_bind]
  refine (ends_question (N := Unchanged k.2.2.1) hsteady (fun _ _ _ _ h => h) hk m).mono ?_ ?_
  · rintro ts _ ⟨k', rfl, hk', -, us, hus, hlist⟩
    rcases mapM_represent classOf ts.toList with hok | ⟨y, hy, hfault⟩
    · rw [ends_ofExcept_ok hok]
      exact ⟨k', rfl, hk', us, hus, by rw [hlist]⟩
    · rw [ends_ofExcept_error hfault]
      obtain ⟨part, hadds, hpart⟩ := hk'
      exact ⟨k', part, rfl, hadds, .inr ⟨hpart, y, hy, rfl⟩⟩
  · rintro e _ ⟨k', rfl, hadds, -⟩
    exact ⟨k', _, rfl, hadds, .inl ⟨[], m, rfl, .nil, hm⟩⟩

/-- The steps of all members. -/
theorem ends_members (hk : Valid inner s (Unchanged k.2.2.1) k) (id : ProcessId) :
    Ends ((classOf id).members.mapM (memberSteps classOf inner)) k.2
      (fun steps t => ∃ k', k'.2 = t ∧ Advances inner s (Unchanged k.2.2.1) k k' ∧
        IsMerged classOf k'.known (classOf id) (TreapSet.ofList steps.flatten))
      fun e t => FailsFrom classOf inner s id k e t := by
  refine (Ends.mapM (w := Prod.snd) (I := Advances inner s (Unchanged k.2.2.1) k)
    (R := fun (k' : Recorded KnownTransitions σ) m steps =>
      ∃ us, k'.known[m]? = some us ∧ steps = us.toList.map (merge classOf))
    (fun m hm k' hk' => ?_) (.refl hk)).mono ?_ fun _ _ h => h
  · have hnotes : k'.2.2.1 = k.2.2.1 := hk'.valid.notes
    refine (ends_memberSteps hsteady (hnotes ▸ hk'.valid) hm).mono ?_ fun _ _ h => h.of_later hk'
    rintro steps _ ⟨k'', rfl, hk'', hsteps⟩
    rw [hnotes] at hk''
    refine ⟨k'', rfl, hk'.trans hk'', hsteps, ?_⟩
    rintro m' steps' ⟨us, hus, rfl⟩
    exact ⟨us, hk''.kept _ us hus, rfl⟩
  · rintro steps _ ⟨k', rfl, hk', hsteps, -⟩
    obtain ⟨hmembers, hlists⟩ := forall₂_exists hsteps
    refine ⟨k', rfl, hk', ?_, ?_⟩
    · intro t
      rw [TreapSet.mem_ofList, List.mem_flatten]
      constructor
      · rintro ⟨l, hl, ht⟩
        obtain ⟨m, hm, us, hus, rfl⟩ := hlists l hl
        obtain ⟨u, hu, rfl⟩ := List.mem_map.1 ht
        exact ⟨m, hm, u.target, ⟨us, hus, hu⟩, rfl⟩
      · rintro ⟨m, hm, x, ⟨us, hus, hx⟩, ht⟩
        obtain ⟨l, hl, us', hus', rfl⟩ := hmembers m hm
        obtain rfl : us = us' := Option.some.inj (hus.symm.trans hus')
        refine ⟨_, hl, List.mem_map.2 ⟨_, hx, ?_⟩⟩
        obtain ⟨a, y⟩ := t
        obtain rfl : y = _ := ht
        rfl
    · intro m hm
      obtain ⟨-, -, us, hus, -⟩ := hmembers m hm
      exact ⟨us, hus⟩

/-- One question to the stage. -/
theorem ends_successors_above (hk : Valid inner s (Unchanged k.2.2.1) k) (id : ProcessId) :
    Ends (successors classOf inner id) k.2
      (fun ts t => (classOf id).contains id = true ∧
        (k.2.2.1[(classOf id).representative]? = some ts ∧ t = k.2 ∨
          k.2.2.1[(classOf id).representative]? = none ∧ ∃ k', Advances inner s (Unchanged k.2.2.1) k k' ∧
            IsMerged classOf k'.known (classOf id) ts ∧
            t = (k'.2.1, k.2.2.1.insert (classOf id).representative ts, k'.2.2.2)))
      fun e t => FailsFrom classOf inner s id k e t := by
  obtain ⟨log, p, n, m⟩ := k
  unfold successors
  rw [ends_bind]
  cases hid : (classOf id).contains id with
  | false =>
    rw [ends_ofExcept_error (show classFor classOf id = .error _ by rw [classFor, hid]; rfl)]
    exact ⟨_, [], rfl, ⟨hk, (List.append_nil _).symm⟩, .inr ⟨.nil, id, hid, rfl⟩⟩
  | true =>
    rw [ends_ofExcept_ok (show classFor classOf id = .ok (classOf id) by rw [classFor, hid]; rfl), ends_bind,
      ends_notes]
    split
    · rename_i ts hts
      exact ⟨rfl, .inl ⟨hts, rfl⟩⟩
    · rename_i hnew
      have hnew : n[(classOf id).representative]? = none := Option.eq_none_iff_forall_ne_some.2 hnew
      rw [ends_bind]
      refine (ends_members hsteady hk id).mono ?_ fun _ _ h => h
      rintro steps _ ⟨⟨log', p', n', m'⟩, rfl, hk', hmerged⟩
      obtain rfl : n' = n := hk'.valid.notes
      rw [ends_bind, ends_modifyNotes, ends_pure]
      exact ⟨rfl, .inr ⟨hnew, _, hk', hmerged, rfl⟩⟩

/-- One question to the stage, as the next one of a log. -/
theorem exists_respond (hk : Valid inner s (Records classOf log) k) (id : ProcessId) :
    ∃ k' part, k'.2 = after (successors classOf inner id) k.2 ∧
      Adds inner s (Records classOf (log ++ [(id, answer (successors classOf inner id) k.2)])) part k k' ∧
      IsRight classOf (log ++ [(id, answer (successors classOf inner id) k.2)]) k'.known
        (id, answer (successors classOf inner id) k.2) part := by
  have hunchanged : Valid inner s (Unchanged k.2.2.1) k := ⟨hk.asked, rfl⟩
  rcases answered_of_ends (c := successors classOf inner id) (ends_successors_above hsteady hunchanged id) with
    ⟨ts, hts, hid, ⟨hknown, hafter⟩ | ⟨hnew, k', ⟨part, hadds, hpart⟩, hmerged, hafter⟩⟩ |
    ⟨e, he, k', part, hk', hadds, hfails⟩
  · rw [hts, hafter]
    have hrecords := hk.notes.snoc_known hknown
    have hsome := hrecords.getElem?_eq (classOf id).representative
    rw [hknown] at hsome
    obtain ⟨⟨first, us⟩, hfirst, rfl⟩ := Option.map_eq_some_iff.1 hsome.symm
    exact ⟨k, [], rfl, ⟨⟨hk.asked, hrecords⟩, (List.append_nil _).symm⟩, .nil, hid, first, hfirst,
      hrecords.merged hfirst⟩
  · rw [hts, hafter]
    have hrecords := hk.notes.snoc_new hadds.kept hnew hid hmerged
    have hsome := hrecords.getElem?_eq (classOf id).representative
    rw [Table.getElem?_insert, if_pos rfl] at hsome
    obtain ⟨⟨first, us⟩, hfirst, rfl⟩ := Option.map_eq_some_iff.1 hsome.symm
    exact ⟨(k'.1, _), part, rfl, ⟨⟨hadds.asked, hrecords⟩, hadds.log_eq⟩, hpart, hid, first, hfirst,
      hrecords.merged hfirst⟩
  · rw [he, ← hk']
    have hnotes : k'.2.2.1 = k.2.2.1 := hadds.notes
    refine ⟨k', part, rfl, ⟨⟨hadds.asked, ?_⟩, hadds.log_eq⟩, hfails⟩
    rw [hnotes]
    exact hk.notes.snoc_error hadds.kept

end Above

theorem IsRight.kept {response : ProcessId × Except Fault Transitions} {later : Log ProcessId Fault Transitions}
    (hk : known.Kept known') (h : IsRight classOf log known response part) :
    IsRight classOf (log ++ later) known' response part := by
  obtain ⟨id, e | ts⟩ := response
  · exact h
  · obtain ⟨hpart, hid, first, hfirst, hlisted, hmerged⟩ := h
    exact ⟨hpart, hid, first, firstAnswer_append hfirst, hlisted, hmerged.kept hk⟩

/-- Any sequence of questions: the log of the generator below falls into one part for each of them. -/
theorem exists_parts {p : Program} {m : σ} (hsteady : inner.Steady (p, m))
    (h : Asked (successors classOf inner) (p, ∅, m) log t) :
    ∃ parts, Valid inner (p, m) (Records classOf log) (parts.flatten, t) ∧
      List.Forall₂ (IsRight classOf log (ofLog parts.flatten)) log parts := by
  have hstart : Records classOf [] ∅ ∅ := by
    constructor
    · intro r
      exact Std.TreeMap.getElem?_emptyc
    · exact fun h => nomatch h
  exact Recorded.exists_parts hstart (fun _ _ _ _ _ _ hk hq => hq.kept hk)
    (fun _ _ id hk => exists_respond hsteady hk id) h

/-- For any classes, above any steady generator: a question fails, or its answer is that of the class of the process
that was the first to be answered with this representative. It is the answer of the own class of the process if all
processes that are listed in their classes and have this representative have the same members in them. -/
theorem answers_first {p : Program} {m : σ} (hsteady : inner.Steady (p, m))
    (h : Asked (successors classOf inner) (p, ∅, m) log t) :
    ∃ parts : List (Log ProcessId Fault Transitions), Asked inner (p, m) parts.flatten (t.1, t.2.2) ∧
      List.Forall₂ (IsRight classOf log (ofLog parts.flatten)) log parts ∧
      ∀ id ts, (id, .ok ts) ∈ log →
        (∀ x, (classOf x).contains x = true → (classOf x).representative = (classOf id).representative →
          ∀ y, y ∈ (classOf x).members ↔ y ∈ (classOf id).members) →
        IsMerged classOf (ofLog parts.flatten) (classOf id) ts := by
  obtain ⟨parts, hvalid, hright⟩ := exists_parts hsteady h
  refine ⟨parts, hvalid.asked, hright, fun id ts hmem hsame => ?_⟩
  obtain ⟨part, -, -, -, first, hfirst, hlisted, hmerged⟩ := (forall₂_exists hright).1 _ hmem
  exact hmerged.congr (hsame first hlisted (representative_of_firstAnswer hfirst).2)

/-- The terms `a.0` and `b.0`, with the identifiers 1 and 2. -/
private def twoPrefixes : Program :=
  let p := (Program.add ∅ .null).2
  let p := (p.add (.act (.visible "a" .input) 0)).2
  (p.add (.act (.visible "b" .input) 0)).2

/-- Each process is in a class of its own, but 1 stands for the class of 2 as well. -/
private def sharedRepresentative (id : ProcessId) : ProcessClass :=
  ⟨if id = 2 then 1 else id, [id]⟩

theorem answers_first_sharedRepresentative :
    let f := successors sharedRepresentative Expansion.successors
    let s : Program × (KnownTransitions × Expansion) := (twoPrefixes, ∅, ∅)
    Expansion.successors.Steady (twoPrefixes, ∅) ∧
      ∃ ts ts' t, Asked f s [(1, .ok ts), (2, .ok ts')] t ∧
        ∃ known, IsMerged sharedRepresentative known (sharedRepresentative 1) ts' := by
  intro f s
  have heval : (match f 1 s with
      | .ok _ t => match f 2 t with
        | .ok _ _ => true
        | _ => false
      | _ => false) = true := by
    decide +kernel
  split at heval
  case h_2 => cases heval
  rename_i ts t₁ h₁
  split at heval
  case h_2 => cases heval
  rename_i ts' t h₂
  have hasked : Asked f s [(1, .ok ts), (2, .ok ts')] t := (Asked.nil.snoc_ok h₁).snoc_ok h₂
  have hsteady : Expansion.successors.Steady (twoPrefixes, ∅) := Expansion.steady _
  obtain ⟨parts, -, hright, -⟩ := answers_first hsteady hasked
  obtain ⟨part, -, -, -, first, hfirst, -, hmerged⟩ := (forall₂_exists hright).1 (2, .ok ts') (by simp)
  obtain rfl : 1 = first := congrArg Prod.fst (Option.some.inj hfirst)
  exact ⟨hsteady, ts, ts', t, hasked, _, hmerged⟩

/-- Once 1 was asked for, the class of 1 decides about 2, which has a class of its own and another step. -/
theorem answer_sharedRepresentative :
    let f := successors sharedRepresentative Expansion.successors
    let s : Program × (KnownTransitions × Expansion) := (twoPrefixes, ∅, ∅)
    Expansion.successors.Steady (twoPrefixes, ∅) ∧
      sharedRepresentative 2 = ⟨1, [2]⟩ ∧ sharedRepresentative 0 = ⟨0, [0]⟩ ∧
      (answer (Expansion.successors 2) (twoPrefixes, ∅)).toOption.map TreapSet.toList =
        some [⟨.visible "b" .input, 0⟩] ∧
      (answer (f 2) s).toOption.map TreapSet.toList = some [⟨.visible "b" .input, 0⟩] ∧
      (answer (f 2) (after (f 1) s)).toOption.map TreapSet.toList = some [⟨.visible "a" .input, 0⟩] :=
  ⟨Expansion.steady _, rfl, rfl, by decide +kernel, by decide +kernel, by decide +kernel⟩

end Classes

end ProcessCalculus
