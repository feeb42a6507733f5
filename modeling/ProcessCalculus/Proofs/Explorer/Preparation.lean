import ProcessCalculus.Explorer.Basic
import ProcessCalculus.Program.Text
import ProcessCalculus.Proofs.Program.Digest
import ProcessCalculus.Proofs.Program.ExposedNames
import ProcessCalculus.Proofs.Program.Questions
import ProcessCalculus.Proofs.Program.UnguardedNames
import ProcessCalculus.Proofs.Sharing.Moves
import ProcessCalculus.Proofs.Transition.Pipeline

/-!
# Prepared explorers

Preparation of a program whose names are all defined either refuses its unguarded names or makes an explorer. The
explorer is sound: in a reading that keeps all terms of the program, its pipeline satisfies the invariants of all
stages.

* `Settings.steps`: the steps with which an explorer should answer.
* `Explorer.Sound`: the invariant of explorers.
* `Explorer.prepare_cases`: the two outcomes of preparation.
* `Explorer.exists_sound_of_prepare`: every explorer that preparation makes is sound.
* `Explorer.exists_prepared`: without unguarded names preparation makes a sound explorer, whatever the settings.
-/

namespace ProcessCalculus

open Term

namespace Settings

/-- The stages of the pipeline that the settings ask for, from the outermost inwards. -/
def stages (settings : Settings) : List Stage :=
  (if settings.saturate then [.saturated] else []) ++ if settings.simplify then [.simplified] else []

/-- The steps of terms that an explorer with these settings should show. -/
def steps (settings : Settings) (defs : String → Term → Prop) : Term → Action → Term → Prop :=
  if settings.saturate then Saturated (Step defs) else Step defs

theorem steps_stages (settings : Settings) (defs : String → Term → Prop) :
    Pipeline.steps defs settings.stages = settings.steps defs := by
  unfold stages steps
  cases settings.saturate <;> cases settings.simplify <;> rfl

/-- Without saturation no identifiers are exhausted. -/
theorem not_exhausted {settings : Settings} (h : settings.saturate = false) (notes : Pipeline.Notes settings.stages) :
    ¬ Pipeline.Exhausted settings.stages notes := by
  obtain ⟨simplify, saturate, refuseUnguarded⟩ := settings
  cases h
  cases simplify <;> exact id

end Settings

namespace Explorer

variable {defs : String → Term → Prop} {p : Program} {m : ProcessId → Term} {settings : Settings}

/-- What holds of an explorer in a reading of its program. -/
structure Sound (defs : String → Term → Prop) (settings : Settings) (e : Explorer) (r : Reading) : Prop where
  program_eq : r.program = e.program
  settings_eq : e.settings = settings
  stages_eq : e.pipeline.stages = settings.stages
  invariant : Pipeline.Invariant defs e.pipeline.stages r e.pipeline.notes
  total : r.Total defs

private theorem ends_share (hm : Reading.Models Reordered defs ⟨p, m⟩) :
    Ends share p
      (fun a q => Sharing.Shared m defs (q, a.1) ∧ Reading.Preserves ⟨p, m⟩ ⟨q, m⟩)
      fun _ _ => False := by
  have hk : Sharing.Shared m defs (p, ∅) := ⟨hm, .empty _, .empty _⟩
  obtain ⟨report, ⟨q, s⟩, hok, hs, hpreserves, -⟩ := (Sharing.ends_shareProgram hk).exists_ok
  refine ends_of_ok (a := (s, report)) (t := q) ?_ ⟨hs, hpreserves⟩
  unfold share
  rw [hok]

private theorem ends_simplify {r : Reading} (hr : r.Models Simplifies defs) :
    Ends (simplify settings) r.program
      (fun s q => ∃ r', r'.program = q ∧ Simplification.Sound defs r' s ∧ r.Preserves r')
      fun _ _ => False := by
  have hs := Simplification.Sound.of_models hr
  unfold simplify
  cases settings.simplify with
  | false => exact ⟨r, rfl, hs, .refl r⟩
  | true =>
    obtain ⟨_, _, hok, r', s', rfl, hs', hp⟩ := (Simplification.ends_simplifyProgram hs).exists_ok
    refine ends_of_ok ?_ ⟨r', rfl, hs', hp⟩
    rw [hok]
    rfl

/-- A pipeline with the notes of sharing and of simplification satisfies the invariants of its stages. -/
private theorem sound_pipelineFor (settings : Settings) {r : Reading} {sharing : Sharing} {simplification : Simplification}
    (hsh : sharing.Sound r) (hsi : Simplification.Sound defs r simplification) :
    (pipelineFor settings sharing simplification).stages = settings.stages ∧
      Pipeline.Invariant defs (pipelineFor settings sharing simplification).stages r
        (pipelineFor settings sharing simplification).notes := by
  have he : Expansion.Sound defs Simplifies r { sharing } := .of_sharing hsi.models hsh
  have hsimplified (step : Term → Action → Term → Prop) : Simplified.Sound defs step r { simplification } :=
    ⟨hsi, .empty⟩
  obtain ⟨simplify, saturate, refuseUnguarded⟩ := settings
  cases simplify <;> cases saturate <;> refine ⟨rfl, ?_⟩
  · exact he
  · exact ⟨.empty _ r, he⟩
  · exact ⟨hsimplified _, he⟩
  · exact ⟨.empty _ r, hsimplified _, he⟩

/-- A preparation that meets an undefined name stops at the first one. -/
theorem prepare_of_undefined {name : String} {names : List String} (h : p.undefinedNames = name :: names)
    (settings : Settings) :
    prepare p settings = .error (.undefinedName name) := by
  have hends : Ends (prepareWith settings) p (fun _ _ => False) fun fault _ => fault = .undefinedName name := by
    unfold prepareWith
    rw [ends_bind, ends_get, h]
    dsimp only
    rw [ends_bind, ends_throw]
  rcases answered_of_ends hends with ⟨_, -, h⟩ | ⟨fault, hfault, rfl⟩
  · exact h.elim
  · rw [prepare, answer_eq_error_iff.1 hfault]

/-- The node of a name is written as the name. -/
private theorem text_of_named (hp : p.WellFormed) {name : String} {id : ProcessId} (hl : p.lookup? name = some id) :
    p.text id = name := by
  obtain ⟨body, hnode⟩ := hp.exists_named_of_lookup? hl
  rw [Program.text, Program.depthBound, Program.textAt, hnode]
  rfl

/-- What is refused is listed by name. -/
private theorem refuse_eq (settings : Settings) (hp : p.WellFormed) {names : List String} {ids : List ProcessId}
    (hnames : List.Forall₂ (fun name id => p.lookup? name = some id) names ids) :
    refuse settings p ids =
      if settings.refuseUnguarded = true ∧ names ≠ [] then .error (.unguardedDefinitions names) else .ok () := by
  have htext : ids.map p.text = names := by
    induction hnames with
    | nil => rfl
    | cons hl _ ih => rw [List.map_cons, text_of_named hp hl, ih]
  have hempty : ids = [] ↔ names = [] := by
    rw [← htext, List.map_eq_nil_iff]
  rw [refuse, htext]
  cases settings.refuseUnguarded <;> simp [hempty]

/-- What preparation makes of a program whose names are all defined: it lists the unguarded names of the program as it
was, refuses them if the settings ask for it, and otherwise makes a sound explorer. -/
theorem prepare_cases (hm : Reading.Models Reordered defs ⟨p, m⟩) (htotal : Reading.Total defs ⟨p, m⟩)
    {names : List String} {ids : List ProcessId} (hunguarded : p.unguarded = .ok ids)
    (hnames : List.Forall₂ (fun name id => p.lookup? name = some id) names ids) (settings : Settings) :
    (settings.refuseUnguarded = true ∧ names ≠ [] ∧ prepare p settings = .error (.unguardedDefinitions names)) ∨
    (¬ (settings.refuseUnguarded = true ∧ names ≠ []) ∧ ∃ e r, prepare p settings = .ok e ∧ e.unguarded = ids ∧
      e.program.unguarded = .ok ids ∧ Sound defs settings e r ∧ Reading.Preserves ⟨p, m⟩ r) := by
  have hmodels : Reading.Models Simplifies defs ⟨p, m⟩ := hm.mono Reordered.simplifies
  have hends : Ends (prepareWith settings) p
      (fun e _ => ¬ (settings.refuseUnguarded = true ∧ names ≠ []) ∧ e.unguarded = ids ∧
        e.program.unguarded = .ok ids ∧ ∃ r, Sound defs settings e r ∧ Reading.Preserves ⟨p, m⟩ r)
      fun fault _ => settings.refuseUnguarded = true ∧ names ≠ [] ∧ fault = .unguardedDefinitions names := by
    have hdefined : p.undefinedNames = [] :=
      hm.wellFormed.undefinedNames_eq_nil_iff.2 fun _ _ => htotal.ne_undefined hm
    obtain ⟨digest, hdigest⟩ : ∃ digest, Digest.ofProgram p = .ok digest :=
      HashFunction.exists_ofProgram Sha256.digest hm.toValid Reordered.precongruence
    unfold prepareWith
    rw [ends_bind, ends_get, hdefined]
    dsimp only
    rw [ends_bind, ends_get, ends_bind, ends_ofExcept_ok hdigest, ends_bind]
    refine (ends_share hm).mono ?_ fun _ _ h => h.elim
    rintro ⟨shared, report⟩ q ⟨hshared, hp⟩
    rw [ends_bind]
    refine (ends_simplify (hshared.models.mono Reordered.simplifies)).mono ?_ fun _ _ h => h.elim
    rintro simplification _ ⟨r, rfl, hs, hp'⟩
    have hpreserves := hp.trans hp'
    -- whatever was rewritten, the same names are unguarded, and have the same processes
    have hstill : r.program.unguarded = .ok ids := (hmodels.unguarded_eq hs.models hpreserves).trans hunguarded
    have hrefuse := refuse_eq settings hs.models.wellFormed
      (hnames.imp fun name _ hl => (hpreserves.lookup?_eq name).trans hl)
    rw [ends_bind, ends_get, ends_bind, ends_ofExcept_ok hstill, ends_bind]
    by_cases hwant : settings.refuseUnguarded = true ∧ names ≠ []
    · rw [if_pos hwant] at hrefuse
      rw [ends_ofExcept_error hrefuse]
      exact ⟨hwant.1, hwant.2, rfl⟩
    · rw [if_neg hwant] at hrefuse
      rw [ends_ofExcept_ok hrefuse, ends_pure]
      obtain ⟨hstages, hinvariant⟩ := sound_pipelineFor settings (hshared.sound.keeps hp'.toKeeps) hs
      exact ⟨hwant, rfl, hstill, r, ⟨rfl, rfl, hstages, hinvariant, htotal.preserves hpreserves⟩, hpreserves⟩
  rcases answered_of_ends hends with ⟨e, he, hwant, hids, hstill, r, hs, hp⟩ | ⟨fault, hfault, hwant, hne, rfl⟩
  · refine .inr ⟨hwant, e, r, ?_, hids, hstill, hs, hp⟩
    rw [prepare, answer_eq_ok_iff.1 he]
  · refine .inl ⟨hwant, hne, ?_⟩
    rw [prepare, answer_eq_error_iff.1 hfault]

/-- Every program with the given definitions is prepared, if there is a measure of names that these lower. -/
theorem exists_prepared (hm : Reading.Models Reordered defs ⟨p, m⟩) (htotal : Reading.Total defs ⟨p, m⟩)
    {names : String → Nat} (hnames : ∀ name t, defs name t → t.unfolding names < names name) (settings : Settings) :
    ∃ e r, prepare p settings = .ok e ∧ Sound defs settings e r ∧ Reading.Preserves ⟨p, m⟩ r := by
  -- definitions lower the measure of names, so none is unguarded
  obtain ⟨rank, hr⟩ := hm.exists_ranked Reordered.precongruence htotal hnames
  have hguarded := Guardedness.unguarded_eq_nil hm.wellFormed hr
  rcases prepare_cases hm htotal hguarded .nil settings with ⟨-, hne, -⟩ | ⟨-, e, r, hok, -, -, hs, hp⟩
  · exact absurd rfl hne
  · exact ⟨e, r, hok, hs, hp⟩

/-- Whatever the definitions and the settings are, an explorer that preparation makes is sound. -/
theorem exists_sound_of_prepare (hp : Built p) {e : Explorer} (he : prepare p settings = .ok e) :
    ∃ defs r, Sound defs settings e r := by
  cases hundefined : p.undefinedNames with
  | cons name names =>
    rw [prepare_of_undefined hundefined settings] at he
    cases he
  | nil =>
    have hw := hp.wellFormed
    obtain ⟨m, -, hmodels⟩ := hp.exists_models
    have htotal := hmodels.toValid.total Reordered.precongruence (hw.undefinedNames_eq_nil_iff.1 hundefined) m
    obtain ⟨names, ids, hok, -, hnames⟩ := hw.exists_unguarded
    rcases prepare_cases hmodels htotal hok hnames settings with ⟨-, -, herror⟩ | ⟨-, e', r, he', -, -, hs, -⟩
    · rw [herror] at he
      cases he
    · obtain rfl : e' = e := Except.ok.inj (he'.symm.trans he)
      exact ⟨p.Defines, r, hs⟩

end Explorer

end ProcessCalculus
