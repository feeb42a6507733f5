import ProcessCalculus.Proofs.Program.Passes
import ProcessCalculus.Proofs.Transition.Additions

/-!
# The table of names

Whatever is built, shared, simplified or asked for, in any order and whether it succeeds or not: the table of names and
the nodes of names are in one-to-one correspondence, and a name stays with its node.

* `Program.WellFormed.ends_define`: when a definition succeeds, and that it changes nothing if it fails.
* `WorkStep`, `WorkHistory`: what may be done to a program, and the programs that come from it.
* `Program.Kept`: some work has left a program that can be read, with all names where they were.
* `Orderly`, `Orderly.step`: what holds after every history, and what one step does to names.
* `WorkHistory.names_correspond`: names, definitions and the list of undefined names after any history.
-/

namespace ProcessCalculus

open Relation Term

namespace Program

variable {p q : Program} {id : ProcessId} {name : String}

/-- The name has a node with a definition. -/
def HasBody (p : Program) (name : String) : Prop :=
  ∃ id body, p.node? id = some (.named name (some body))

/-- A definition succeeds if there is such a term and the name has no definition yet. Otherwise it changes nothing, and
in particular does not enter the name. -/
theorem WellFormed.ends_define (hp : p.WellFormed) (name : String) (body : ProcessId) :
    Ends (define name body) p
      (fun id q => body < p.size ∧ ¬ p.HasBody name ∧ q.lookup? name = some id ∧
        q.node? id = some (.named name (some body)))
      fun fault q => q = p ∧ (p.size ≤ body ∧ fault = .missingProcess body ∨
        p.HasBody name ∧ fault = .alreadyDefined name) := by
  unfold define
  rw [ends_bind, ends_get]
  cases hbody : p.node? body with
  | none =>
    rw [Option.isNone_none, if_pos rfl, ends_bind, ends_throw]
    exact ⟨rfl, .inl ⟨node?_eq_none_iff.1 hbody, rfl⟩⟩
  | some term =>
    have hlt := lt_size_of_node? hbody
    rw [Option.isNone_some, if_neg Bool.false_ne_true, ends_bind, ends_modifyGet, ends_bind, ends_get]
    have hname := p.lookup?_mention name
    cases hl : p.lookup? name with
    | none =>
      obtain ⟨hid, hsize, hnode, -⟩ := mention_of_new hl
      have hown : (p.mention name).2.node? (p.mention name).1 = some (.named name none) := by
        rw [hnode, hid, if_pos rfl]
      have hnobody : ¬ p.HasBody name := by
        rintro ⟨x, b, hx⟩
        rw [hp.lookup?_of_named hx] at hl
        cases hl
      rw [hown]
      dsimp only
      rw [ends_bind, ends_modify, ends_pure]
      refine ⟨hlt, hnobody, hname, ?_⟩
      rw [node?_write_of_lt (lt_size_of_node? hown), if_pos rfl]
    | some x =>
      obtain ⟨old, hx⟩ := hp.exists_named_of_lookup? hl
      rw [mention_of_known hl, hx]
      cases old with
      | none =>
        have hnobody : ¬ p.HasBody name := by
          rintro ⟨y, b, hy⟩
          obtain rfl : x = y := Option.some.inj (hl.symm.trans (hp.lookup?_of_named hy))
          simp [hx] at hy
        dsimp only
        rw [ends_bind, ends_modify, ends_pure]
        refine ⟨hlt, hnobody, hl, ?_⟩
        rw [node?_write_of_lt (lt_size_of_node? hx), if_pos rfl]
      | some b =>
        dsimp only
        rw [ends_throw]
        exact ⟨rfl, .inr ⟨⟨x, b, hx⟩, rfl⟩⟩

end Program

/-- A step of work on a program, with generators of transitions beside it: building, a pass over all definitions, a
generator that starts from the notes of such a pass, or a call of a generator. Calls and definitions may fail. -/
inductive WorkStep : Program × (Nat → Expansion) → Program × (Nat → Expansion) → Prop
  | build {p q : Program} (es : Nat → Expansion) (h : BuildStep p q) : WorkStep (p, es) (q, es)
  | pass {p q : Program} (es : Nat → Expansion) (h : PassStep p q) : WorkStep (p, es) (q, es)
  | start {p q : Program} {s : Sharing} (es : Nat → Expansion) (i : Nat)
      (h : after Sharing.shareProgram (p, ∅) = (q, s)) :
      WorkStep (p, es) (q, Function.update es i { sharing := s })
  | successors {p q : Program} {e : Expansion} (es : Nat → Expansion) (i : Nat) (id : ProcessId)
      (h : after (Expansion.successors id) (p, es i) = (q, e)) : WorkStep (p, es) (q, Function.update es i e)

/-- The program comes from an empty one, and all generators had empty notes then. -/
def WorkHistory (k : Program × (Nat → Expansion)) : Prop :=
  ReflTransGen WorkStep (∅, fun _ => ∅) k

/-- The program `q` was left by some work on `p`. It can be read, and names are found where they were found before. -/
structure Program.Kept (p q : Program) : Prop where
  exists_valid : ∃ m, Reading.Valid Simplifies ⟨q, m⟩
  size_le : p.size ≤ q.size
  lookup?_eq {name : String} {id : ProcessId} : p.lookup? name = some id → q.lookup? name = some id

namespace Program.Kept

variable {p q r : Program} {m : ProcessId → Term}

theorem refl (h : Reading.Valid Simplifies ⟨p, m⟩) : Kept p p :=
  ⟨⟨m, h⟩, Nat.le_refl _, fun hl => hl⟩

theorem trans (h : Kept p q) (h' : Kept q r) : Kept p r :=
  ⟨h'.exists_valid, Nat.le_trans h.size_le h'.size_le, fun hl => h'.lookup?_eq (h.lookup?_eq hl)⟩

theorem wellFormed (h : Kept p q) : q.WellFormed := by
  obtain ⟨m, hm⟩ := h.exists_valid
  exact hm.wellFormed

theorem of_build (h : Reading.Valid Simplifies ⟨p, m⟩) (hstep : BuildStep p q) : Kept p q := by
  obtain ⟨⟨_, m'⟩, rfl, hm', -⟩ := hstep.exists_reading rfl h Simplifies.refl
  exact ⟨⟨m', hm'⟩, hstep.size_le, hstep.lookup?_eq⟩

theorem of_built (h : Reading.Valid Simplifies ⟨p, m⟩) (hsteps : ReflTransGen BuildStep p q) : Kept p q := by
  induction hsteps with
  | refl => exact .refl h
  | tail _ hstep ih =>
    obtain ⟨m', hm'⟩ := ih.exists_valid
    exact ih.trans (.of_build hm' hstep)

theorem of_pass (h : Reading.Valid Simplifies ⟨p, m⟩) (hstep : PassStep p q) : Kept p q := by
  obtain ⟨m₀, -, ⟨_, m'⟩, rfl, hm', hpreserves⟩ := hstep.exists_reading_of_valid h
  exact ⟨⟨m', hm'.toValid⟩, hpreserves.size_le, fun {name id} hl => (hpreserves.lookup?_eq name).trans hl⟩

end Program.Kept

/-- A generator may start with the notes of a pass over all definitions. -/
theorem issued_of_shareProgram {p : Program} {m : ProcessId → Term} (h : Reading.Valid Simplifies ⟨p, m⟩) :
    Expansion.Issued ((after Sharing.shareProgram (p, ∅)).1, { sharing := (after Sharing.shareProgram (p, ∅)).2 }) := by
  obtain ⟨m₀, hmodels, -⟩ := (PassStep.share p).exists_reading_of_valid h
  have hk : Sharing.Shared m₀ p.Defines (p, ∅) := ⟨hmodels, .empty _, .empty _⟩
  refine Ends.after (P := fun k : Program × Sharing => Expansion.Issued (k.1, { sharing := k.2 })) ?_
  refine (Sharing.ends_shareProgram hk).mono (fun _ k' h => ?_) fun _ _ h => h.elim
  exact ⟨h.1.models.wellFormed, fun _ _ hkey => (h.1.sound.terms_sound hkey).1, fun hts => by simp at hts⟩

/-- The program can be read, and the notes of all generators speak of its processes only. -/
structure Orderly (k : Program × (Nat → Expansion)) : Prop where
  exists_valid : ∃ m, Reading.Valid Simplifies ⟨k.1, m⟩
  issued (i : Nat) : Expansion.Issued (k.1, k.2 i)

namespace Orderly

variable {k k' : Program × (Nat → Expansion)} {p q : Program} {es : Nat → Expansion}

theorem empty : Orderly (∅, fun _ => ∅) := by
  obtain ⟨⟨_, m⟩, rfl, hm⟩ := Built.exists_reading .refl Simplifies.refl
  exact ⟨⟨m, hm⟩, fun _ => .empty hm.wellFormed⟩

/-- Notes stay right when the program grows. -/
theorem kept (h : Orderly (p, es)) (hkept : p.Kept q) : Orderly (q, es) where
  exists_valid := hkept.exists_valid
  issued i :=
    ⟨hkept.wellFormed, fun key id hkey => Nat.lt_of_lt_of_le ((h.issued i).term_lt key id hkey) hkept.size_le,
      fun hts t ht => Nat.lt_of_lt_of_le ((h.issued i).target_lt hts t ht) hkept.size_le⟩

theorem update (h : Orderly (p, es)) {e : Expansion} (he : Expansion.Issued (p, e)) (i : Nat) :
    Orderly (p, Function.update es i e) where
  exists_valid := h.exists_valid
  issued j := by
    show Expansion.Issued (p, Function.update es i e j)
    rcases eq_or_ne j i with rfl | hne
    · rw [Function.update_self]
      exact he
    · rw [Function.update_of_ne hne]
      exact h.issued j

/-- What one step does to names, and that it keeps order. -/
theorem step (h : Orderly k) (hstep : WorkStep k k') : Orderly k' ∧ k.1.Kept k'.1 := by
  obtain ⟨m, hm⟩ := h.exists_valid
  cases hstep with
  | build es hstep => exact ⟨h.kept (.of_build hm hstep), .of_build hm hstep⟩
  | pass es hstep => exact ⟨h.kept (.of_pass hm hstep), .of_pass hm hstep⟩
  | @start p q s es i h' =>
    have hkept : p.Kept q := by
      have hpass := Program.Kept.of_pass hm (.share p)
      rwa [h'] at hpass
    have hissued := issued_of_shareProgram hm
    rw [h'] at hissued
    exact ⟨(h.kept hkept).update hissued i, hkept⟩
  | @successors p q e es i id h' =>
    have hcontinues := (h.issued i).successors id
    rw [h'] at hcontinues
    obtain ⟨hissued, hinterns⟩ := hcontinues
    have hkept := Program.Kept.of_built hm hinterns.built
    exact ⟨(h.kept hkept).update hissued i, hkept⟩

theorem steps (h : Orderly k) (hsteps : ReflTransGen WorkStep k k') : Orderly k' ∧ k.1.Kept k'.1 := by
  induction hsteps with
  | refl =>
    obtain ⟨m, hm⟩ := h.exists_valid
    exact ⟨h, .refl hm⟩
  | tail _ hstep ih =>
    obtain ⟨h', hkept⟩ := ih.1.step hstep
    exact ⟨h', ih.2.trans hkept⟩

end Orderly

/-- After any history, an identifier is found under a name exactly if its node is one of this name, and it is still
found there after any further work. A definition succeeds exactly if there is such a term and the name has no definition
yet. If it fails then it changes nothing, and otherwise the node of the name has the definition. The undefined names are
listed in order, and they are the known names that have no definition. -/
theorem WorkHistory.names_correspond {k : Program × (Nat → Expansion)} (hk : WorkHistory k) :
    (∀ name id, k.1.lookup? name = some id ↔ ∃ body, k.1.node? id = some (.named name body)) ∧
    (∀ k', ReflTransGen WorkStep k k' → ∀ name id, k.1.lookup? name = some id → k'.1.lookup? name = some id) ∧
    (∀ name body, ((∃ id q, Program.define name body k.1 = .ok id q) ↔ body < k.1.size ∧ ¬ k.1.HasBody name) ∧
      (∀ fault q, Program.define name body k.1 = .error fault q → q = k.1) ∧
      ∀ id q, Program.define name body k.1 = .ok id q →
        q.lookup? name = some id ∧ q.node? id = some (.named name (some body))) ∧
    k.1.undefinedNames.Pairwise (· < ·) ∧
    ∀ name, name ∈ k.1.undefinedNames ↔ (∃ id, k.1.lookup? name = some id) ∧ ¬ k.1.HasBody name := by
  obtain ⟨horderly, hkept⟩ := Orderly.empty.steps hk
  have hw := hkept.wellFormed
  refine ⟨fun name id => ⟨hw.exists_named_of_lookup?, fun ⟨body, hnode⟩ => hw.lookup?_of_named hnode⟩,
    fun k' hsteps name id hl => (horderly.steps hsteps).2.lookup?_eq hl, fun name body => ?_, hw.undefinedNames_sorted,
    fun name => ?_⟩
  · have hdefine := hw.ends_define name body
    refine ⟨⟨?_, ?_⟩, fun fault q herror => (hdefine.of_error herror).1, fun id q hok => (hdefine.of_ok hok).2.2⟩
    · rintro ⟨id, q, hok⟩
      exact ⟨(hdefine.of_ok hok).1, (hdefine.of_ok hok).2.1⟩
    · rintro ⟨hlt, hnobody⟩
      cases hrun : Program.define name body k.1 with
      | ok id q => exact ⟨id, q, rfl⟩
      | error fault q =>
        obtain ⟨-, ⟨hle, -⟩ | ⟨hbody, -⟩⟩ := hdefine.of_error hrun
        · exact absurd hlt (Nat.not_lt_of_le hle)
        · exact absurd hbody hnobody
  · rw [hw.mem_undefinedNames]
    constructor
    · rintro ⟨id, hnode⟩
      refine ⟨⟨id, hw.lookup?_of_named hnode⟩, ?_⟩
      rintro ⟨x, b, hx⟩
      obtain rfl : x = id := Option.some.inj ((hw.lookup?_of_named hx).symm.trans (hw.lookup?_of_named hnode))
      simp [hnode] at hx
    · rintro ⟨⟨id, hl⟩, hnobody⟩
      obtain ⟨body, hnode⟩ := hw.exists_named_of_lookup? hl
      cases body with
      | none => exact ⟨id, hnode⟩
      | some b => exact absurd ⟨id, b, hnode⟩ hnobody

/-- The name `P` is mentioned, and `Q` is defined as `P + P`. -/
private def aliased : Program :=
  let p := (Program.mention ∅ "P").2
  let p := (p.add (.sum 0 0)).2
  after (Program.define "Q" 1) p

private theorem built_aliased : Built aliased :=
  ((ReflTransGen.refl.tail (.mention ∅ "P")).tail (.add rfl (by decide))).tail (.define _ "Q" 1)

/-- After simplification `Q` stands for `P`. It cannot be defined again, which changes nothing, and `P` can still be
defined. -/
theorem WorkHistory.names_correspond_aliased :
    let p := (after Simplification.simplifyProgram (aliased, ∅)).1
    WorkHistory (p, fun _ => ∅) ∧ p.node? 2 = some (.named "Q" (some 0)) ∧ p.lookup? "Q" = some 2 ∧
      (¬ ∃ id q, Program.define "Q" 0 p = .ok id q) ∧ (∀ fault q, Program.define "Q" 0 p = .error fault q → q = p) ∧
      "P" ∈ p.undefinedNames ∧ ∃ id q, Program.define "P" 1 p = .ok id q := by
  intro p
  have hbuilt : WorkHistory (aliased, fun _ => ∅) :=
    built_aliased.lift (fun p => (p, fun _ => ∅)) fun _ _ hstep => .build _ hstep
  have hk : WorkHistory (p, fun _ => ∅) := hbuilt.tail (.pass _ (.simplify aliased))
  have hsize : 1 < p.size := by decide +kernel
  have hP : p.node? 0 = some (.named "P" none) := by decide +kernel
  have hQ : p.node? 2 = some (.named "Q" (some 0)) := by decide +kernel
  obtain ⟨hnamed, -, hdefine, -, hundefined⟩ := WorkHistory.names_correspond hk
  have hlookup : p.lookup? "P" = some 0 := (hnamed "P" 0).2 ⟨none, hP⟩
  have hnobody : ¬ p.HasBody "P" := by
    rintro ⟨id, b, hid⟩
    obtain rfl : 0 = id := Option.some.inj (hlookup.symm.trans ((hnamed "P" id).2 ⟨some b, hid⟩))
    simp [hP] at hid
  refine ⟨hk, hQ, (hnamed "Q" 2).2 ⟨some 0, hQ⟩, fun hok => ?_, (hdefine "Q" 0).2.1,
    (hundefined "P").2 ⟨⟨0, hlookup⟩, hnobody⟩, (hdefine "P" 1).1.2 ⟨hsize, hnobody⟩⟩
  exact ((hdefine "Q" 0).1.1 hok).2 ⟨2, 0, hQ⟩

end ProcessCalculus
