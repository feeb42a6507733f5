import ProcessCalculus.Proofs.Explorer.Bisimilarity
import ProcessCalculus.Proofs.Program.Walks
import ProcessCalculus.Proofs.Transition.Classes

/-!
# Runs of questions

An explorer and quotients of it are asked any questions, for any identifiers and under any classes, and whatever the
definitions are. The program stays well-formed throughout, and every question about processes of the program comes to
an end, with an answer or with one of few faults.

* `Explorer.Queried`: the explorers that such runs lead to.
* `Classes.ends_successors_of_correct`: one question to the stage that merges classes, above a correct generator.
* `Explorer.MayFail`: the faults of questions about processes of the program.
* `Explorer.Sound.queried`: the invariant of explorers holds along every run.
* `Explorer.queried_wellFormed`: what the invariant means for the program, for all walks over it and for questions.
-/

namespace ProcessCalculus

open Generator.State Relation Term

namespace Classes

variable {σ : Type} {defs : String → Term → Prop} {step : Term → Action → Term → Prop} {inner : Generator σ}
  {answered : σ → KnownTransitions} {excused : Fault → σ → Prop} {I : Reading → σ → Prop}
  {classOf : ProcessId → ProcessClass}

/-- The invariant of the generator below. Representatives are any identifiers, so nothing is asked of the answers of
the stage. -/
def Keeps (I : Reading → σ → Prop) (r : Reading) (n : KnownTransitions × σ) : Prop :=
  I r n.2

/-- The fault that reports a class which does not list the process that has it. -/
def Inconsistent (classOf : ProcessId → ProcessClass) (fault : Fault) : Prop :=
  ∃ x, (classOf x).contains x = false ∧ fault = .inconsistentClass x (classOf x).representative

/-- Whatever a question does, the invariant is restored. It fails if the class lists a process that is not in the
program, if the fault of the generator below is excused, or at a class that does not list its process. -/
def Fails (classOf : ProcessId → ProcessClass) (excused : Fault → σ → Prop) (I : Reading → σ → Prop) (c : ProcessClass)
    (k : Generator.State (KnownTransitions × σ)) (fault : Fault) (t : Program × (KnownTransitions × σ)) : Prop :=
  ∃ k' : Generator.State (KnownTransitions × σ), k'.toPair = t ∧ Leads (Keeps I) k k' ∧
    ((∃ m ∈ c.members, k.1.program.size ≤ m) ∨ excused fault k'.2.2 ∨ Inconsistent classOf fault)

variable {k k' : Generator.State (KnownTransitions × σ)}

theorem Fails.of_leads {c : ProcessClass} {fault : Fault} {t : Program × (KnownTransitions × σ)}
    (hk : Leads (Keeps I) k k') (h : Fails classOf excused I c k' fault t) : Fails classOf excused I c k fault t := by
  obtain ⟨k'', rfl, hk', hwhy⟩ := h
  refine ⟨k'', rfl, hk.trans hk', hwhy.imp_left ?_⟩
  rintro ⟨m, hm, hsize⟩
  exact ⟨m, hm, Nat.le_trans hk.preserves.size_le hsize⟩

section Inner

variable (h : inner.Correct defs step answered excused I)

include h

private theorem ends_memberSteps_of_correct {c : ProcessClass} (hk : Keeps I k.1 k.2) (htotal : k.1.Total defs)
    {m : ProcessId} (hm : m ∈ c.members) :
    Ends (memberSteps classOf inner m) k.toPair
      (fun _ t => ∃ k' : Generator.State (KnownTransitions × σ), k'.toPair = t ∧ Leads (Keeps I) k k')
      (Fails classOf excused I c k) := by
  obtain ⟨r, n, notes⟩ := k
  unfold memberSteps
  rw [ends_bind, toPair, ends_inner]
  refine (h.ends (k := (r, notes)) m hk htotal).mono ?_ ?_
  · rintro ts _ ⟨⟨r', notes'⟩, rfl, ⟨hnotes', hp⟩, -⟩
    have hleads : Leads (Keeps I) (r, n, notes) (r', n, notes') := ⟨hnotes', hp⟩
    rcases mapM_represent classOf ts.toList with hok | ⟨y, hy, hfault⟩
    · rw [ends_ofExcept_ok hok]
      exact ⟨_, rfl, hleads⟩
    · rw [ends_ofExcept_error hfault]
      exact ⟨_, rfl, hleads, .inr (.inr ⟨y, hy, rfl⟩)⟩
  · rintro fault _ ⟨⟨r', notes'⟩, rfl, ⟨hnotes', hp⟩, hwhy⟩
    exact ⟨(r', n, notes'), rfl, ⟨hnotes', hp⟩, hwhy.imp (fun hsize => ⟨m, hm, hsize⟩) .inl⟩

theorem ends_successors_of_correct (hk : Keeps I k.1 k.2) (htotal : k.1.Total defs) (id : ProcessId) :
    Ends (successors classOf inner id) k.toPair
      (fun _ t => ∃ k' : Generator.State (KnownTransitions × σ), k'.toPair = t ∧ Leads (Keeps I) k k')
      (Fails classOf excused I (classOf id) k) := by
  unfold successors
  rw [ends_bind]
  cases hid : (classOf id).contains id with
  | false =>
    rw [ends_ofExcept_error (show classFor classOf id = .error _ by rw [classFor, hid]; rfl)]
    exact ⟨k, rfl, .refl hk, .inr (.inr ⟨id, hid, rfl⟩)⟩
  | true =>
    rw [ends_ofExcept_ok (show classFor classOf id = .ok (classOf id) by rw [classFor, hid]; rfl), ends_bind, toPair,
      ends_notes]
    split
    · exact ⟨k, rfl, .refl hk⟩
    · rw [ends_bind]
      refine (Ends.mapM (w := toPair) (I := Leads (Keeps I) k) (R := fun _ _ _ => True)
        (fun m hm k' hk' => ?_) (.refl hk)).mono ?_ fun _ _ h => h
      · refine (ends_memberSteps_of_correct h hk'.invariant (htotal.preserves hk'.preserves) hm).mono ?_
          fun _ _ hfails => hfails.of_leads hk'
        rintro _ _ ⟨k'', rfl, hk''⟩
        exact ⟨k'', rfl, hk'.trans hk'', trivial, fun _ _ _ => trivial⟩
      · rintro steps _ ⟨⟨r', n', notes'⟩, rfl, hk', -⟩
        rw [ends_bind, toPair, ends_modifyNotes, ends_pure]
        exact ⟨(r', n'.insert (classOf id).representative (TreapSet.ofList steps.flatten), notes'), rfl,
          hk'.invariant, hk'.preserves⟩

end Inner

end Classes

namespace Explorer

/-- A quotient is asked for transitions, and is as it is after the question, whatever the answer. -/
inductive Quotient.Asks (q : Quotient) : Quotient → Prop
  | successors (id : ProcessId) : Asks q (q.successors id).2
  | successorsOf (name : String) : Asks q (q.successorsOf name).2

/-- Questions lead from one explorer to the other. They are put to the explorer itself, or one after the other to a
quotient of it by any classes, and then to the explorer that the quotient leaves. -/
inductive Queried (e : Explorer) : Explorer → Prop
  | refl : Queried e e
  | asks {e' e'' : Explorer} (h : Queried e e') (ha : Asks e' e'') : Queried e e''
  | quotient {e' : Explorer} (h : Queried e e') (classOf : ProcessId → ProcessClass) {q : Quotient}
      (hq : ReflTransGen Quotient.Asks { explorer := e', classOf } q) : Queried e q.explorer

/-- The faults of questions about processes of the program, for the explorer afterwards: a name is met again while it
is unfolded, or a silent closure has more members than there are identifiers, so that the search for it has no end
within its bound. -/
def MayFail (e : Explorer) (fault : Fault) : Prop :=
  (∃ name, fault = .unguardedUnfolding name) ∨ fault = .searchExhausted ∧ ¬ e.ClosuresFit

variable {defs : String → Term → Prop} {settings : Settings} {e e' : Explorer} {r : Reading} {fault : Fault}

theorem MayFail.ne_missing (h : e.MayFail fault) (x : ProcessId) : fault ≠ .missingProcess x := by
  rcases h with ⟨name, rfl⟩ | ⟨rfl, -⟩ <;> nofun

namespace Sound

theorem models (h : Sound defs settings e r) : r.Models Simplifies defs :=
  (Pipeline.correct_unless_cyclic e.pipeline.stages).models h.invariant

/-- A named process is in the program. -/
theorem lt_size_of_lookup? (h : Sound defs settings e r) {name : String} {id : ProcessId}
    (hl : e.program.lookup? name = some id) : id < e.program.size := by
  rw [← h.program_eq] at hl ⊢
  obtain ⟨body, hnode⟩ := h.models.wellFormed.exists_named_of_lookup? hl
  exact Program.lt_size_of_node? hnode

/-- A question is answered, or the process is not in the program, or the fault is one of few. -/
theorem successors_unless_cyclic (h : Sound defs settings e r) (id : ProcessId) :
    (∃ r', Sound defs settings (e.successors id).2 r') ∧
      ∀ fault, (e.successors id).1 = .error fault → e.program.size ≤ id ∨ (e.successors id).2.MayFail fault := by
  obtain ⟨r', hs', -, ⟨ts, hts, -⟩ | ⟨fault, hfault, hwhy⟩⟩ :=
    h.successors_of_correct Pipeline.correct_unless_cyclic id
  · refine ⟨⟨r', hs'⟩, fun fault hfault => ?_⟩
    rw [hts] at hfault
    cases hfault
  · refine ⟨⟨r', hs'⟩, fun fault' hfault' => ?_⟩
    obtain rfl : fault = fault' := Except.error.inj (hfault.symm.trans hfault')
    exact hwhy.imp_right fun hex => hex.imp_right fun ⟨heq, hex⟩ => ⟨heq, fun hfit => hfit hex⟩

/-- A question for a name that is known is one about a process of the program. -/
theorem successorsOf_unless_cyclic (h : Sound defs settings e r) (name : String) :
    (∃ r', Sound defs settings (e.successorsOf name).2 r') ∧
      ∀ fault, (e.successorsOf name).1 = .error fault →
        e.program.lookup? name = none ∧ fault = .unknownName name ∨ (e.successorsOf name).2.MayFail fault := by
  unfold Explorer.successorsOf Program.lookup
  cases hl : e.program.lookup? name with
  | none => exact ⟨⟨r, h⟩, fun fault hfault => .inl ⟨rfl, (Except.error.inj hfault).symm⟩⟩
  | some id =>
    obtain ⟨hs', hfaults⟩ := h.successors_unless_cyclic id
    refine ⟨hs', fun fault hfault => .inr ?_⟩
    exact (hfaults fault hfault).resolve_left (Nat.not_le_of_lt (h.lt_size_of_lookup? hl))

theorem asks_unless_cyclic (h : Sound defs settings e r) (ha : Asks e e') : ∃ r', Sound defs settings e' r' := by
  cases ha with
  | successors id => exact (h.successors_unless_cyclic id).1
  | successorsOf name => exact (h.successorsOf_unless_cyclic name).1

/-- A question to a quotient does to the explorer what its questions to the generator below do. -/
theorem quotient_successors {q : Quotient} (h : Sound defs settings q.explorer r) (id : ProcessId) :
    (∃ r', Sound defs settings (q.successors id).2.explorer r') ∧
      ∀ fault, (q.successors id).1 = .error fault →
        (∃ m ∈ (q.classOf id).members, q.explorer.program.size ≤ m) ∨
          (q.successors id).2.explorer.MayFail fault ∨ Classes.Inconsistent q.classOf fault := by
  have hends : Ends (Classes.successors q.classOf _ id) _ _ _ :=
    Classes.ends_successors_of_correct (k := (r, q.known, q.explorer.pipeline.notes))
      (Pipeline.correct_unless_cyclic q.explorer.pipeline.stages) h.invariant h.total id
  rw [toPair, h.program_eq] at hends
  unfold Quotient.successors
  dsimp only
  split
  · rename_i answer program known notes hrun
    obtain ⟨⟨r', known', notes'⟩, heq, hinvariant, hp⟩ := hends.of_ok hrun
    cases heq
    refine ⟨⟨r', rfl, h.settings_eq, h.stages_eq, hinvariant, h.total.preserves hp⟩, fun fault hfault => ?_⟩
    cases hfault
  · rename_i fault program known notes hrun
    obtain ⟨⟨r', known', notes'⟩, heq, ⟨hinvariant, hp⟩, hwhy⟩ := hends.of_error hrun
    cases heq
    refine ⟨⟨r', rfl, h.settings_eq, h.stages_eq, hinvariant, h.total.preserves hp⟩, ?_⟩
    rintro _ ⟨⟩
    rw [← h.program_eq]
    refine hwhy.imp_right (Or.imp_left fun hex => ?_)
    exact hex.imp_right fun hex => ⟨hex.1, fun hfit => hfit hex.2⟩

/-- The same for a named process. -/
theorem quotient_successorsOf {q : Quotient} (h : Sound defs settings q.explorer r) (name : String) :
    (∃ r', Sound defs settings (q.successorsOf name).2.explorer r') ∧
      ∀ fault, (q.successorsOf name).1 = .error fault →
        q.explorer.program.lookup? name = none ∧ fault = .unknownName name ∨
          (∃ id, q.explorer.program.lookup? name = some id ∧
            ∃ m ∈ (q.classOf id).members, q.explorer.program.size ≤ m) ∨
          (q.successorsOf name).2.explorer.MayFail fault ∨ Classes.Inconsistent q.classOf fault := by
  unfold Quotient.successorsOf Program.lookup
  cases hl : q.explorer.program.lookup? name with
  | none => exact ⟨⟨r, h⟩, fun fault hfault => .inl ⟨rfl, (Except.error.inj hfault).symm⟩⟩
  | some id =>
    obtain ⟨hs', hfaults⟩ := h.quotient_successors id
    exact ⟨hs', fun fault hfault => .inr ((hfaults fault hfault).imp_left fun hmissing => ⟨id, rfl, hmissing⟩)⟩

theorem quotient_asks {q q' : Quotient} (h : Sound defs settings q.explorer r) (ha : Quotient.Asks q q') :
    ∃ r', Sound defs settings q'.explorer r' := by
  cases ha with
  | successors id => exact (h.quotient_successors id).1
  | successorsOf name => exact (h.quotient_successorsOf name).1

/-- Any run of questions keeps an explorer sound. -/
theorem queried (h : Sound defs settings e r) (hq : Queried e e') : ∃ r', Sound defs settings e' r' := by
  induction hq with
  | refl => exact ⟨r, h⟩
  | asks _ ha ih =>
    obtain ⟨r', hs⟩ := ih
    exact hs.asks_unless_cyclic ha
  | quotient _ classOf hq ih =>
    induction hq with
    | refl => exact ih
    | tail _ ha ih' =>
      obtain ⟨r', hs⟩ := ih'
      exact hs.quotient_asks ha

end Sound

/-- Along every run of questions, to the explorer of a program that was built and to quotients of it, the program is
well-formed: subterms and definitions are processes of the program, each node carries the identifier under which it is
stored, and the table of names gives for each name its one node. No process is below itself, so all walks from
processes of the program end. So does every question: one for a process of the program, or for a name, is answered, or
an unguarded name is reported, or a silent closure has more members than there are identifiers, which needs as large a
program, or the name is unknown. No process is reported as missing. The same holds for a quotient if the class of the
process that is asked for lists processes of the program only, except that a class may not list a process that has
it. -/
theorem queried_wellFormed {p : Program} (hp : Built p) {settings : Settings} {e₀ e : Explorer}
    (he₀ : prepare p settings = .ok e₀) (he : Queried e₀ e) :
    e.program.WellFormed ∧ (∀ id, ¬ TransGen e.program.Child id id) ∧
      (e.program.size ≤ identifierCount → e.ClosuresFit) ∧
      (∀ id, id < e.program.size →
        e.program.Walkable id ∧ (∀ x, (e.successors id).1 ≠ .error (.missingProcess x)) ∧
          ∀ fault, (e.successors id).1 = .error fault → (e.successors id).2.MayFail fault) ∧
      (∀ name, (∀ x, (e.successorsOf name).1 ≠ .error (.missingProcess x)) ∧
        ∀ fault, (e.successorsOf name).1 = .error fault →
          e.program.lookup? name = none ∧ fault = .unknownName name ∨ (e.successorsOf name).2.MayFail fault) ∧
      ∀ q : Quotient, q.explorer = e →
        (∀ id, (∀ m ∈ (q.classOf id).members, m < e.program.size) →
          (∀ x, (q.successors id).1 ≠ .error (.missingProcess x)) ∧
            ∀ fault, (q.successors id).1 = .error fault →
              (q.successors id).2.explorer.MayFail fault ∨ Classes.Inconsistent q.classOf fault) ∧
        ∀ name, (∀ id, e.program.lookup? name = some id → ∀ m ∈ (q.classOf id).members, m < e.program.size) →
          ∀ fault, (q.successorsOf name).1 = .error fault →
            e.program.lookup? name = none ∧ fault = .unknownName name ∨
              (q.successorsOf name).2.explorer.MayFail fault ∨ Classes.Inconsistent q.classOf fault := by
  obtain ⟨defs, r₀, hs₀⟩ := exists_sound_of_prepare hp he₀
  obtain ⟨r, hs⟩ := hs₀.queried he
  have hmodels := hs.models
  have hprogram := hs.program_eq
  have hsuccessors (id : ProcessId) (hid : id < e.program.size) (fault : Fault)
      (hfault : (e.successors id).1 = .error fault) : (e.successors id).2.MayFail fault :=
    ((hs.successors_unless_cyclic id).2 fault hfault).resolve_left (Nat.not_le_of_lt hid)
  refine ⟨?_, fun id => ?_, hs.closuresFit_of_size, fun id hid => ⟨?_, fun x hx => ?_, hsuccessors id hid⟩,
    fun name => ⟨fun x hx => ?_, (hs.successorsOf_unless_cyclic name).2⟩, ?_⟩
  · rw [← hprogram]
    exact hmodels.wellFormed
  · rw [← hprogram]
    exact hmodels.not_transGen_child Simplifies.precongruence id
  · rw [← hprogram] at hid ⊢
    exact hmodels.walkable hs.total hid
  · exact (hsuccessors id hid _ hx).ne_missing x rfl
  · rcases (hs.successorsOf_unless_cyclic name).2 _ hx with ⟨-, hfault⟩ | hfault
    · cases hfault
    · exact hfault.ne_missing x rfl
  · rintro q rfl
    refine ⟨fun id hmembers => ?_, fun name hmembers fault hfault => ?_⟩
    · have hfaults (fault : Fault) (hfault : (q.successors id).1 = .error fault) :
          (q.successors id).2.explorer.MayFail fault ∨ Classes.Inconsistent q.classOf fault := by
        refine ((hs.quotient_successors id).2 fault hfault).resolve_left ?_
        rintro ⟨m, hm, hsize⟩
        exact absurd (hmembers m hm) (Nat.not_lt_of_le hsize)
      refine ⟨fun x hx => ?_, hfaults⟩
      rcases hfaults _ hx with hfault | ⟨y, -, hfault⟩
      · exact hfault.ne_missing x rfl
      · cases hfault
    · refine ((hs.quotient_successorsOf name).2 fault hfault).imp_right fun hwhy => hwhy.resolve_left ?_
      rintro ⟨id, hl, m, hm, hsize⟩
      exact absurd (hmembers id hl m hm) (Nat.not_lt_of_le hsize)

/-- The definitions `P = (a.P \ b) \ c` and `Q = Q`. -/
private def restrictedLoop : Program :=
  let p := (Program.mention ∅ "P").2
  let p := (p.add (.act (.visible "a" .input) 0)).2
  let p := (p.add (.restrict 1 (.ofList ["b"]))).2
  let p := (p.add (.restrict 2 (.ofList ["c"]))).2
  let p := after (Program.define "P" 3) p
  let p := (p.mention "Q").2
  after (Program.define "Q" 4) p

private theorem built_restrictedLoop : Built restrictedLoop :=
  ((((((ReflTransGen.refl.tail (.mention ∅ "P")).tail (.add rfl (by decide))).tail (.add rfl (by decide))).tail
    (.add rfl (by decide))).tail (.define _ "P" 3)).tail (.mention _ "Q")).tail (.define _ "Q" 4)

/-- Preparation merges the two restrictions in a new node. Then `Q` is asked for, which has no transitions that the
rules determine, a process that is not there, and a quotient in which `P` is in one class with a process that is not
there. -/
theorem queried_wellFormed_restrictedLoop :
    ∃ e₀ e, prepare restrictedLoop ⟨true, true, false⟩ = .ok e₀ ∧ Queried e₀ e ∧ Built restrictedLoop ∧
      e.program.WellFormed ∧ ¬ TransGen e.program.Child 5 5 ∧
        (∀ x, (e.successorsOf "P").1 ≠ .error (.missingProcess x)) ∧
          ∀ fault, (e.successorsOf "P").1 = .error fault →
            e.program.lookup? "P" = none ∧ fault = .unknownName "P" ∨ (e.successorsOf "P").2.MayFail fault := by
  have hok : (prepare restrictedLoop ⟨true, true, false⟩).isOk = true := by
    decide +kernel
  cases he₀ : prepare restrictedLoop ⟨true, true, false⟩ with
  | error fault =>
    rw [he₀] at hok
    cases hok
  | ok e₀ =>
    let e₂ := ((e₀.successors 4).2.successors 99).2
    let q : Quotient := { explorer := e₂, classOf := fun _ => ⟨7, [0, 99]⟩ }
    have hasked : Queried e₀ e₂ := (Queried.refl.asks (.successors 4)).asks (.successors 99)
    have hq : Queried e₀ (q.successors 0).2.explorer := .quotient hasked _ (.single (.successors 0))
    obtain ⟨hw, hacyclic, -, -, hnames, -⟩ := queried_wellFormed built_restrictedLoop he₀ hq
    exact ⟨e₀, _, rfl, hq, built_restrictedLoop, hw, hacyclic 5, hnames "P"⟩

end Explorer

end ProcessCalculus
