import ProcessCalculus.Proofs.Explorer.Preparation

/-!
# Explorers up to bisimilarity

Questions change the program that an explorer holds: targets are added, shared and simplified, and definitions were
redirected before the first question. All the same, what the explorer shows of a name, question after question, is
strongly bisimilar to the name in the program as it was handed in.

* `Explorer.Asks`: a question, with the explorer before and after it.
* `Explorer.IsSessionBisimulation`: a bisimulation between what explorers answer and the steps of terms.
* `Explorer.prepare_bisimilar`: the statement for all settings and all sequences of questions.
-/

namespace ProcessCalculus

open Relation Term

namespace Explorer

/-- An explorer is asked for transitions, and is as it is after the question, whatever the answer. -/
inductive Asks (e : Explorer) : Explorer → Prop
  | successors (id : ProcessId) : Asks e (e.successors id).2
  | successorsOf (name : String) : Asks e (e.successorsOf name).2

/-- No silent closure that was met has more members than there are identifiers. -/
def ClosuresFit (e : Explorer) : Prop :=
  ¬ Pipeline.Exhausted e.pipeline.stages e.pipeline.notes

/-- A bisimulation between the processes of explorers and terms. No question undoes the relation. An explorer answers
for related processes, where it saturates only if the silent closures fit, and an answer holds the steps of the
related term: they lead to what is related to the targets, in the explorer as it is then. -/
structure IsSessionBisimulation (step : Term → Action → Term → Prop) (R : Explorer → ProcessId → Term → Prop) :
    Prop where
  keeps {e e' : Explorer} {id : ProcessId} {t : Term} : R e id t → Asks e e' → R e' id t
  exists_answer {e : Explorer} {id : ProcessId} {t : Term} :
    R e id t → (e.settings.saturate = true → (e.successors id).2.ClosuresFit) →
      ∃ ts, (e.successors id).1 = .ok ts
  forth {e : Explorer} {id : ProcessId} {t : Term} {ts : Transitions} {x : Transition} :
    R e id t → (e.successors id).1 = .ok ts → x ∈ ts →
      ∃ u, step t x.action u ∧ R (e.successors id).2 x.target u
  back {e : Explorer} {id : ProcessId} {t : Term} {ts : Transitions} {a : Action} {u : Term} :
    R e id t → (e.successors id).1 = .ok ts → step t a u →
      ∃ x ∈ ts, x.action = a ∧ R (e.successors id).2 x.target u

/-- In some reading that the explorer has, the process stands for what may stand for the term. -/
private def Reads (defs : String → Term → Prop) (settings : Settings) (e : Explorer) (id : ProcessId) (t : Term) :
    Prop :=
  ∃ r, Sound defs settings e r ∧ id < r.program.size ∧ Simplifies t (r.term id)

variable {defs : String → Term → Prop} {settings : Settings} {e e' : Explorer} {r : Reading}

namespace Sound

theorem closuresFit_of_saturate (h : Sound defs settings e r) (hs : e.settings.saturate = false) :
    e.ClosuresFit := by
  obtain ⟨program, ⟨stages, notes⟩, settings', unguarded, digest, sharing, simplifications⟩ := e
  obtain rfl : settings' = settings := h.settings_eq
  obtain rfl : stages = settings'.stages := h.stages_eq
  exact Settings.not_exhausted hs notes

theorem closuresFit_of_size (h : Sound defs settings e r) (hs : e.program.size ≤ identifierCount) :
    e.ClosuresFit := by
  intro hex
  have hlt := Pipeline.lt_size_of_exhausted h.invariant hex
  rw [h.program_eq] at hlt
  exact absurd hs (Nat.not_le_of_lt hlt)

/-- A question keeps an explorer sound. It is answered with the steps of the process, or the process is not in the
program, or the fault is one that a correct pipeline excuses. -/
theorem successors_of_correct {excused : (stages : List Stage) → Fault → Pipeline.Notes stages → Prop}
    (hcorrect : ∀ stages, (Pipeline.generator stages).Correct defs (Pipeline.steps defs stages)
      (Pipeline.answered stages) (excused stages) (Pipeline.Invariant defs stages))
    (h : Sound defs settings e r) (id : ProcessId) :
    ∃ r', Sound defs settings (e.successors id).2 r' ∧ r.Preserves r' ∧
      ((∃ ts, (e.successors id).1 = .ok ts ∧ Answers (settings.steps defs) Simplifies r' id ts) ∨
        ∃ fault, (e.successors id).1 = .error fault ∧
          (e.program.size ≤ id ∨
            excused (e.successors id).2.pipeline.stages fault (e.successors id).2.pipeline.notes)) := by
  have hends := (hcorrect e.pipeline.stages).ends (k := (r, e.pipeline.notes)) id h.invariant h.total
  rw [Generator.State.toPair, h.program_eq] at hends
  unfold Explorer.successors Pipeline.successors Pipeline.run
  dsimp only
  cases hrun : Pipeline.generator e.pipeline.stages id (e.program, e.pipeline.notes) with
  | ok ts t =>
    obtain ⟨⟨r', notes⟩, rfl, ⟨hinvariant, hp⟩, -, hts⟩ := hends.of_ok hrun
    refine ⟨r', ⟨rfl, h.settings_eq, h.stages_eq, hinvariant, h.total.preserves hp⟩, hp, .inl ⟨ts, rfl, ?_⟩⟩
    have hanswer : Answers (Pipeline.steps defs e.pipeline.stages) Simplifies r' id ts :=
      (hcorrect e.pipeline.stages).answers hinvariant hts
    rwa [h.stages_eq, settings.steps_stages] at hanswer
  | error fault t =>
    obtain ⟨⟨r', notes⟩, rfl, ⟨hinvariant, hp⟩, hwhy⟩ := hends.of_error hrun
    exact ⟨r', ⟨rfl, h.settings_eq, h.stages_eq, hinvariant, h.total.preserves hp⟩, hp, .inr ⟨fault, rfl, hwhy⟩⟩

variable {names : String → Nat} (hnames : ∀ name t, defs name t → t.unfolding names < names name)

include hnames

/-- With guarded definitions, a process of the program is not answered for only if a silent closure is too large. -/
theorem successors (h : Sound defs settings e r) (id : ProcessId) :
    ∃ r', Sound defs settings (e.successors id).2 r' ∧ r.Preserves r' ∧
      ((∃ ts, (e.successors id).1 = .ok ts ∧ Answers (settings.steps defs) Simplifies r' id ts) ∨
        ∃ fault, (e.successors id).1 = .error fault ∧
          (e.program.size ≤ id ∨ ¬ (e.successors id).2.ClosuresFit)) := by
  obtain ⟨r', hs', hp, hanswer | ⟨fault, hfault, hwhy⟩⟩ :=
    h.successors_of_correct (Pipeline.correct hnames) id
  · exact ⟨r', hs', hp, .inl hanswer⟩
  · exact ⟨r', hs', hp, .inr ⟨fault, hfault, hwhy.imp_right fun hex hfit => hfit hex⟩⟩

theorem asks (h : Sound defs settings e r) (ha : Asks e e') :
    ∃ r', Sound defs settings e' r' ∧ r.Preserves r' := by
  have hsuccessors (id : ProcessId) : ∃ r', Sound defs settings (e.successors id).2 r' ∧ r.Preserves r' := by
    obtain ⟨r', hs', hp, -⟩ := h.successors hnames id
    exact ⟨r', hs', hp⟩
  cases ha with
  | successors id => exact hsuccessors id
  | successorsOf name =>
    unfold Explorer.successorsOf
    split
    · exact hsuccessors _
    · exact ⟨r, h, .refl r⟩

/-- Any sequence of questions keeps an explorer sound. -/
theorem asksMany (h : Sound defs settings e r) (ha : ReflTransGen Asks e e') :
    ∃ r', Sound defs settings e' r' ∧ r.Preserves r' := by
  induction ha with
  | refl => exact ⟨r, h, .refl r⟩
  | tail _ hask ih =>
    obtain ⟨r₁, hs₁, hp₁⟩ := ih
    obtain ⟨r₂, hs₂, hp₂⟩ := hs₁.asks hnames hask
    exact ⟨r₂, hs₂, hp₁.trans hp₂⟩

end Sound

private theorem isBisimulation_steps (settings : Settings) (defs : String → Term → Prop) :
    IsBisimulation (settings.steps defs) (settings.steps defs) Simplifies :=
  settings.steps_stages defs ▸ Pipeline.isBisimulation_steps settings.stages

private theorem isSessionBisimulation_reads {names : String → Nat}
    (hnames : ∀ name t, defs name t → t.unfolding names < names name) (settings : Settings) :
    IsSessionBisimulation (settings.steps defs) (Reads defs settings) where
  keeps := by
    rintro e e' id t ⟨r, hs, hid, hle⟩ ha
    obtain ⟨r', hs', hp⟩ := hs.asks hnames ha
    exact ⟨r', hs', Nat.lt_of_lt_of_le hid hp.size_le, by rwa [hp.term_eq hid]⟩
  exists_answer := by
    rintro e id t ⟨r, hs, hid, -⟩ hfit
    obtain ⟨r', hs', -, ⟨ts, hts, -⟩ | ⟨fault, -, hwhy⟩⟩ := hs.successors hnames id
    · exact ⟨ts, hts⟩
    · rw [hs.program_eq] at hid
      -- the process is there, so only closures that are too large could be the reason
      refine absurd ?_ (hwhy.resolve_left (Nat.not_le_of_lt hid))
      cases hsat : e.settings.saturate with
      | true => exact hfit hsat
      | false =>
        refine hs'.closuresFit_of_saturate ?_
        rw [hs'.settings_eq, ← hs.settings_eq, hsat]
  forth := by
    rintro e id t ts x ⟨r, hs, hid, hle⟩ hts hx
    obtain ⟨r', hs', hp, ⟨ts', hts', hanswer⟩ | ⟨fault, hfault, -⟩⟩ := hs.successors hnames id
    · obtain rfl : ts' = ts := by simpa [hts] using hts'.symm
      obtain ⟨u, hu, hux⟩ := hanswer.enumerates.sound ⟨x, hx, rfl, rfl⟩
      rw [hp.term_eq hid] at hu
      obtain ⟨v, hv, hvu⟩ := (isBisimulation_steps settings defs).back hle hu
      exact ⟨v, hv, r', hs', hanswer.target_lt hx, hvu.trans hux⟩
    · rw [hts] at hfault
      cases hfault
  back := by
    rintro e id t ts a u ⟨r, hs, hid, hle⟩ hts hu
    obtain ⟨r', hs', hp, ⟨ts', hts', hanswer⟩ | ⟨fault, hfault, -⟩⟩ := hs.successors hnames id
    · obtain rfl : ts' = ts := by simpa [hts] using hts'.symm
      obtain ⟨v, hv, huv⟩ := (isBisimulation_steps settings defs).forth hle hu
      rw [← hp.term_eq hid] at hv
      obtain ⟨_, ⟨x, hx, ha, rfl⟩, hvx⟩ := hanswer.enumerates.complete hv
      exact ⟨x, hx, ha, r', hs', hanswer.target_lt hx, huv.trans hvx⟩
    · rw [hts] at hfault
      cases hfault

/-- A program in which every name is defined and no name is unguarded has an explorer, whatever the settings. After
any questions, the explorer answers for every process of its program; every name is still known under its
identifier, and what is shown of it is bisimilar to the name in the program that was handed in, by the rules of the
calculus, or by their saturated steps if the explorer saturates. -/
theorem prepare_bisimilar {p : Program} (hp : Built p)
    (hdefined : ∀ name id, p.lookup? name = some id → ∃ t, p.Defines name t)
    (hguarded : ∀ name id, p.lookup? name = some id → ¬ p.Unguarded id) (settings : Settings) :
    ∃ e₀ R, prepare p settings = .ok e₀ ∧ IsSessionBisimulation (settings.steps p.Defines) R ∧
      ∀ e, ReflTransGen Asks e₀ e →
        (∀ id, id < e.program.size → (settings.saturate = true → (e.successors id).2.ClosuresFit) →
          ∃ ts, (e.successors id).1 = .ok ts) ∧
        (∀ name id, p.lookup? name = some id → R e id (.name name) ∧ e.successorsOf name = e.successors id) ∧
        (e.program.size ≤ identifierCount → e.ClosuresFit) := by
  obtain ⟨⟨q, _⟩, hq, hv⟩ := hp.exists_reading Reordered.refl
  obtain rfl : q = p := hq
  -- read as what its identifiers denote, the program has its own definitions
  obtain ⟨m, hm, hexact⟩ := hv.exists_exact
  have hmodels : Reading.Models Reordered q.Defines ⟨q, m⟩ :=
    .of_denotes (hexact Reordered Reordered.refl) fun id hid => ⟨m id, hm id hid, .refl _⟩
  obtain ⟨names, hnames⟩ := Program.exists_unfolding (hexact (· = ·) fun _ => rfl) hm hguarded
  obtain ⟨e₀, r₀, hok, hs₀, hp₀⟩ := exists_prepared hmodels hdefined hnames settings
  have hbisimulation := isSessionBisimulation_reads hnames settings
  refine ⟨e₀, Reads q.Defines settings, hok, hbisimulation, fun e he => ?_⟩
  obtain ⟨r, hs, hr⟩ := hs₀.asksMany hnames he
  refine ⟨fun id hid hfit => ?_, fun name id hl => ?_, hs.closuresFit_of_size⟩
  · rw [← hs.program_eq] at hid
    exact hbisimulation.exists_answer ⟨r, hs, hid, .refl _⟩ (hs.settings_eq ▸ hfit)
  · have hkeeps := hp₀.trans hr
    obtain ⟨node, hnode, hname⟩ := Option.bind_eq_some_iff.1 (hmodels.wellFormed.lookup?_eq_some_iff.1 hl)
    obtain ⟨body, rfl⟩ := Node.name?_eq_some_iff.1 hname
    have hid := Program.lt_size_of_node? hnode
    have hterm : r.term id = .name name := (hkeeps.term_eq hid).trans ((hm id hid).unique (.named hnode))
    refine ⟨⟨r, hs, Nat.lt_of_lt_of_le hid hkeeps.size_le, hterm ▸ .refl _⟩, ?_⟩
    have hl' : e.program.lookup? name = some id := by
      rw [← hs.program_eq, hkeeps.lookup?_eq]
      exact hl
    rw [successorsOf, Program.lookup, hl']

/-- The definition `P = τ.a.P`. -/
private def silentPrefix : Program :=
  let p := (Program.mention ∅ "P").2
  let p := (p.add (.act (.visible "a" .input) 0)).2
  let p := (p.add (.act .silent 1)).2
  after (Program.define "P" 2) p

private theorem built_silentPrefix : Built silentPrefix :=
  (((ReflTransGen.refl.tail (.mention ∅ "P")).tail (.add rfl (by decide))).tail (.add rfl (by decide))).tail
    (.define _ "P" 2)

private theorem denotes_silentPrefix :
    silentPrefix.Denotes 2 (.act .silent (.act (.visible "a" .input) (.name "P"))) :=
  .act rfl (.act rfl (.named rfl))

private theorem eq_of_lookup?_silentPrefix {name : String} {id : ProcessId}
    (h : silentPrefix.lookup? name = some id) : name = "P" ∧ id = 0 := by
  have hname := built_silentPrefix.wellFormed.lookup?_eq_some_iff.1 h
  obtain ⟨node, hnode, hnamed⟩ := Option.bind_eq_some_iff.1 hname
  match id, Program.lt_size_of_node? hnode with
  | 0, _ => exact ⟨(Option.some.inj hname).symm, rfl⟩
  | 1, _ => cases hname
  | 2, _ => cases hname

/-- What is shown of `P` while silent steps are hidden begins with `a`. -/
theorem prepare_bisimilar_silentPrefix :
    Built silentPrefix ∧ ∃ e, prepare silentPrefix .observable = .ok e ∧
      ∃ ts, (e.successorsOf "P").1 = .ok ts ∧ ∃ x ∈ ts, x.action = .visible "a" .input := by
  have hdefined (name : String) (id : ProcessId) (hl : silentPrefix.lookup? name = some id) :
      ∃ t, silentPrefix.Defines name t := by
    obtain ⟨rfl, rfl⟩ := eq_of_lookup?_silentPrefix hl
    exact ⟨_, 0, 2, rfl, rfl, denotes_silentPrefix⟩
  have hguarded (name : String) (id : ProcessId) (hl : silentPrefix.lookup? name = some id) :
      ¬ silentPrefix.Unguarded id := by
    obtain ⟨-, rfl⟩ := eq_of_lookup?_silentPrefix hl
    -- the path leads from the name to the silent prefix, where it ends
    rintro ⟨path, hstart, hedge⟩
    obtain ⟨node, hnode, hnext⟩ := hedge 0
    rw [hstart] at hnode
    cases hnode
    obtain ⟨node, hnode, hlast⟩ := hedge 1
    rw [List.mem_singleton.1 hnext] at hnode
    cases hnode
    cases hlast
  have hsmall : (match prepare silentPrefix .observable with
      | .ok e => decide ((e.successors 0).2.program.size ≤ identifierCount)
      | .error _ => false) = true := by
    decide +kernel
  obtain ⟨e, R, hok, hR, hall⟩ := prepare_bisimilar built_silentPrefix hdefined hguarded .observable
  rw [hok] at hsmall
  have hfit := (hall _ (.single (.successors 0))).2.2 (of_decide_eq_true hsmall)
  obtain ⟨hP, hasked⟩ := (hall e .refl).2.1 "P" 0 rfl
  obtain ⟨ts, hts⟩ := hR.exists_answer hP fun _ => hfit
  have hsilent : SilentPath (Step silentPrefix.Defines) (.name "P") (.act (.visible "a" .input) (.name "P")) :=
    .single (.unfold ⟨0, 2, rfl, rfl, denotes_silentPrefix⟩ (.act .silent _))
  have hstep : Saturated (Step silentPrefix.Defines) (.name "P") (.visible "a" .input) (.name "P") :=
    ⟨nofun, _, _, hsilent, .act _ _, .refl⟩
  obtain ⟨x, hx, ha, -⟩ := hR.back hP hts hstep
  exact ⟨built_silentPrefix, e, hok, ts, hasked ▸ hts, x, hx, ha⟩

end Explorer

end ProcessCalculus
