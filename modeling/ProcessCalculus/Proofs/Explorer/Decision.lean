import ProcessCalculus.Proofs.Explorer.Preparation
import ProcessCalculus.Proofs.Program.Passes

/-!
# What preparation decides by

The guardedness check of a preparation runs on a program that was shared and simplified before. All the same, the
outcome is that of the program as it was handed in: whether a name is undefined, and which names are unguarded.

* `PassStep.unguarded_eq`: the passes change neither the names of a program nor which of them are unguarded.
* `Explorer.prepare_decided`: the outcome of preparation, said of the program that is handed in.
-/

namespace ProcessCalculus

open Relation Term

/-- The program knows the name, and nothing defines it. -/
def Program.Undefined (p : Program) (name : String) : Prop :=
  ∃ id, p.lookup? name = some id ∧ p.node? id = some (.named name none)

namespace PassStep

variable {p q : Program}

/-- A pass keeps the unguarded names and where names are found. -/
private theorem unguarded_eq_of_step {r : Reading} (hv : r.Valid Simplifies) (h : PassStep r.program q) :
    (∃ r' : Reading, r'.program = q ∧ r'.Valid Simplifies) ∧ q.unguarded = r.program.unguarded ∧
      ∀ name, q.lookup? name = r.program.lookup? name := by
  obtain ⟨m, hmodels, r', rfl, hm', hp⟩ := h.exists_reading_of_valid hv
  have hmodels' : Reading.Models Simplifies r.program.Defines ⟨r.program, m⟩ := hmodels.mono Reordered.simplifies
  exact ⟨⟨r', rfl, hm'.toValid⟩, hmodels'.unguarded_eq hm' hp, hp.lookup?_eq⟩

/-- Any passes, one after the other. -/
theorem unguarded_eq (hp : Built p) (h : ReflTransGen PassStep p q) :
    q.unguarded = p.unguarded ∧ ∀ name, q.lookup? name = p.lookup? name := by
  have hrun : (∃ r : Reading, r.program = q ∧ r.Valid Simplifies) ∧ q.unguarded = p.unguarded ∧
      ∀ name, q.lookup? name = p.lookup? name := by
    induction h with
    | refl => exact ⟨hp.exists_reading Simplifies.refl, rfl, fun _ => rfl⟩
    | tail _ hstep ih =>
      obtain ⟨⟨r, rfl, hv⟩, hsame, hlookup⟩ := ih
      obtain ⟨hr', hsame', hlookup'⟩ := unguarded_eq_of_step hv hstep
      exact ⟨hr', hsame'.trans hsame, fun name => (hlookup' name).trans (hlookup name)⟩
  exact hrun.2

end PassStep

namespace Explorer

/-- If a name is undefined, preparation fails with the first such name in the order of names. Otherwise the unguarded
names of the program that is handed in decide: if there are any and the settings refuse them, preparation fails and
lists just these, in their order; if not, it succeeds with these, which are also the unguarded names of the explorer's
program. For no passes change which names are unguarded. -/
theorem prepare_decided {p : Program} (hp : Built p) (settings : Settings) :
    ((∃ name, p.Undefined name) → ∃ name, p.Undefined name ∧
      (∀ other, p.Undefined other → other = name ∨ name < other) ∧
      prepare p settings = .error (.undefinedName name)) ∧
    ((∀ name, ¬ p.Undefined name) → ∃ (names : List String) (ids : List ProcessId), p.unguarded = .ok ids ∧
      names.Pairwise (· < ·) ∧ List.Forall₂ (fun name id => p.lookup? name = some id) names ids ∧
      (settings.refuseUnguarded = true ∧ names ≠ [] → prepare p settings = .error (.unguardedDefinitions names)) ∧
      (¬ (settings.refuseUnguarded = true ∧ names ≠ []) →
        ∃ e, prepare p settings = .ok e ∧ e.unguarded = ids ∧ e.program.unguarded = .ok ids)) ∧
    ∀ q, ReflTransGen PassStep p q → q.unguarded = p.unguarded ∧ ∀ name, q.lookup? name = p.lookup? name := by
  have hw := hp.wellFormed
  have hundefined (name : String) : name ∈ p.undefinedNames ↔ p.Undefined name := by
    rw [hw.mem_undefinedNames]
    exact exists_congr fun id => ⟨fun hnode => ⟨hw.lookup?_of_named hnode, hnode⟩, fun h => h.2⟩
  refine ⟨?_, ?_, fun q hq => PassStep.unguarded_eq hp hq⟩
  · rintro ⟨some, hsome⟩
    cases hnames : p.undefinedNames with
    | nil =>
      rw [← hundefined, hnames] at hsome
      cases hsome
    | cons name names =>
      have hsorted := hw.undefinedNames_sorted
      rw [hnames, List.pairwise_cons] at hsorted
      refine ⟨name, (hundefined name).1 (by simp [hnames]), fun other hother => ?_,
        prepare_of_undefined hnames settings⟩
      rw [← hundefined, hnames, List.mem_cons] at hother
      exact hother.imp_right (hsorted.1 other)
  · intro hdefined
    obtain ⟨m, -, hmodels⟩ := hp.exists_models
    have htotal := hmodels.toValid.total Reordered.precongruence
      (fun id name hnode => hdefined name ⟨id, hw.lookup?_of_named hnode, hnode⟩) m
    obtain ⟨names, ids, hok, hsorted, hnames⟩ := hw.exists_unguarded
    refine ⟨names, ids, hok, hsorted, hnames, ?_⟩
    rcases prepare_cases hmodels htotal hok hnames settings with
      ⟨hwant, hne, herror⟩ | ⟨hwant, e, r, he, hids, hstill, -⟩
    · exact ⟨fun _ => herror, fun h => absurd ⟨hwant, hne⟩ h⟩
    · exact ⟨fun h => absurd h hwant, fun _ => ⟨e, he, hids, hstill⟩⟩

/-- The definitions `P = Q + 0` and `Q = P \ ∅`. -/
private def mutualUnfolding : Program :=
  let p := (Program.mention ∅ "P").2
  let p := (p.mention "Q").2
  let p := (p.add .null).2
  let p := (p.add (.sum 1 2)).2
  let p := after (Program.define "P" 3) p
  let p := (p.add (.restrict 0 ∅)).2
  after (Program.define "Q" 4) p

private theorem built_mutualUnfolding : Built mutualUnfolding :=
  ((((((ReflTransGen.refl.tail (.mention ∅ "P")).tail (.mention _ "Q")).tail (.add rfl (by decide))).tail
    (.add rfl (by decide))).tail (.define _ "P" 3)).tail (.add rfl (by decide))).tail (.define _ "Q" 4)

/-- Simplified, the two definitions lead to one another at once. They are refused as they were handed in, and listed if
they are not refused. -/
theorem prepare_decided_mutualUnfolding :
    Built mutualUnfolding ∧ (∀ name, ¬ mutualUnfolding.Undefined name) ∧
      prepare mutualUnfolding {} = .error (.unguardedDefinitions ["P", "Q"]) ∧
      ∃ e, prepare mutualUnfolding ⟨true, true, false⟩ = .ok e ∧ e.unguarded = [0, 1] := by
  have hw := built_mutualUnfolding.wellFormed
  have hnone : mutualUnfolding.undefinedNames = [] := by decide +kernel
  have hdefined (name : String) : ¬ mutualUnfolding.Undefined name := by
    rintro ⟨id, -, hnode⟩
    exact hw.undefinedNames_eq_nil_iff.1 hnone id name hnode
  have hids {ids : List ProcessId} (hok : mutualUnfolding.unguarded = .ok ids) : ids = [0, 1] := by
    have heval : mutualUnfolding.unguarded.toOption = some [0, 1] := by decide +kernel
    rw [hok] at heval
    exact Option.some.inj heval
  obtain ⟨names, ids, hok, -, hnames, hrefused, -⟩ := (prepare_decided built_mutualUnfolding {}).2.1 hdefined
  obtain ⟨_, ids', hok', -, -, -, hmade⟩ := (prepare_decided built_mutualUnfolding ⟨true, true, false⟩).2.1 hdefined
  obtain ⟨e, he, hlisted, -⟩ := hmade fun h => Bool.false_ne_true h.1
  refine ⟨built_mutualUnfolding, hdefined, ?_, e, he, hlisted.trans (hids hok')⟩
  obtain rfl := hids hok
  cases hnames with
  | cons hP hrest =>
    cases hrest with
    | cons hQ hnil =>
      cases hnil
      cases hw.lookup?_eq_some_iff.1 hP
      cases hw.lookup?_eq_some_iff.1 hQ
      exact hrefused ⟨rfl, List.cons_ne_nil _ _⟩

end Explorer

end ProcessCalculus
