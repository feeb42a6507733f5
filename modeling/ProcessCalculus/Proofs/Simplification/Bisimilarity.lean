import ProcessCalculus.Proofs.Simplification.Forms

/-!
# Simplification up to bisimilarity

Simplification rewrites nodes that others share, and redirects definitions that are unfolded while terms are
compared. All the same, everything in the program stays strongly bisimilar to what it was.

* `Program.BisimilarIn`: what two identifiers denote, each in a program of its own, is strongly bisimilar.
* `Program.BisimilarIn.of_simplifies`: so are an identifier and a form of it in a later program.
* `Simplification.simplify_bisimilar`: the statement for one term and for all definitions.
-/

namespace ProcessCalculus

open Term

/-- What the two identifiers denote, the one in the first program and the other in the second, is strongly
bisimilar. -/
def Program.BisimilarIn (p q : Program) (id id' : ProcessId) : Prop :=
  ∃ t u, p.Denotes id t ∧ q.Denotes id' u ∧ Bisimilar (Step p.Defines) (Step q.Defines) t u

/-- In readings that agree on definitions, an identifier is bisimilar to what stands for a simplified form of it. -/
theorem Program.BisimilarIn.of_simplifies {defs : String → Term → Prop} {r r' : Reading}
    (h : r.Models Simplifies defs) (h' : r'.Models Simplifies defs) {id form : ProcessId} (hid : id < r.program.size)
    (hform : form < r'.program.size) (hs : Simplifies (r.term id) (r'.term form)) :
    r.program.BisimilarIn r'.program id form := by
  obtain ⟨t, ht, hle⟩ := h.denotes Simplifies.precongruence hid
  obtain ⟨u, hu, hle'⟩ := h'.denotes Simplifies.precongruence hform
  have hb := (h.isBisimulation Simplifies.precongruence).swap.comp (h'.isBisimulation Simplifies.precongruence)
  exact ⟨t, u, ht, hu, _, hb, r.term id, hle, hs.trans hle'⟩

namespace Simplification

variable {p : Program} {m : ProcessId → Term} {r : Reading} {id form : ProcessId}

/-- An identifier whose form stands for what it was is bisimilar to it. -/
private theorem bisimilarIn_of_simplifies (hm : ∀ id, id < p.size → p.Denotes id (m id))
    (h : r.Models Simplifies p.Defines) (hid : id < p.size) (hform : form < r.program.size)
    (hs : Simplifies (m id) (r.term form)) : p.BisimilarIn r.program id form := by
  obtain ⟨u, hu, hle⟩ := h.denotes Simplifies.precongruence hform
  exact ⟨m id, u, hm id hid, hu, Simplifies, h.isBisimulation Simplifies.precongruence, hs.trans hle⟩

private theorem bisimilarIn_self (hm : ∀ id, id < p.size → p.Denotes id (m id))
    (h : r.Models Simplifies p.Defines) (hk : Reading.Keeps ⟨p, m⟩ r) (hid : id < p.size) :
    p.BisimilarIn r.program id id := by
  refine bisimilarIn_of_simplifies hm h hid (Nat.lt_of_lt_of_le hid hk.size_le) ?_
  rw [show r.term id = m id from hk.term_eq hid]
  exact .refl _

/-- With fresh notes, simplification of an issued identifier answers with something bisimilar to it, simplification
of the whole program succeeds, and after either of them, whatever its outcome, everything in the program is
bisimilar to what it was. -/
theorem simplify_bisimilar (hp : Built p) :
    (∀ root, root < p.size → ∃ form t, simplify root (p, ∅) = .ok form t ∧ p.BisimilarIn t.1 root form) ∧
    (∀ root id, id < p.size → p.BisimilarIn (after (simplify root) (p, ∅)).1 id id) ∧
    (∃ t, simplifyProgram (p, ∅) = .ok () t) ∧
    ∀ id, id < p.size → p.BisimilarIn (after simplifyProgram (p, ∅)).1 id id := by
  obtain ⟨⟨q, _⟩, hq, hv⟩ := hp.exists_reading Reordered.refl
  obtain rfl : q = p := hq
  obtain ⟨m, hm, hexact⟩ := hv.exists_exact
  have hmodels : Reading.Models Simplifies q.Defines ⟨q, m⟩ :=
    .of_denotes (hexact Simplifies Simplifies.refl) fun id hid => ⟨m id, hm id hid, .refl _⟩
  have hsound := Sound.of_models hmodels
  refine ⟨fun root hroot => ?_, fun root id hid => ?_, ?_, fun id hid => ?_⟩
  · obtain ⟨form, t, hok, r', s', rfl, hs', hrw, hform⟩ := (ends_simplify hsound hroot).exists_ok
    have hs := hform.simplifies
    rw [show r'.term root = m root from hrw.term_eq hroot] at hs
    exact ⟨form, _, hok, bisimilarIn_of_simplifies hm hs'.models hroot hform.form_lt hs⟩
  · refine Ends.after (P := fun t : Program × Simplification => q.BisimilarIn t.1 id id) ?_
    by_cases hroot : root < q.size
    · refine (ends_simplify hsound hroot).mono ?_ fun _ _ h => h.elim
      rintro form _ ⟨r', s', rfl, hs', hrw, -⟩
      exact bisimilarIn_self hm hs'.models hrw.toKeeps hid
    · refine (ends_simplify_of_le hsound (Nat.le_of_not_lt hroot)).mono (fun _ _ h => h.elim) ?_
      rintro e _ ⟨-, rfl⟩
      exact bisimilarIn_self hm hmodels (.refl _) hid
  · obtain ⟨_, t, hok, -⟩ := (ends_simplifyProgram hsound).exists_ok
    exact ⟨t, hok⟩
  · refine Ends.after (P := fun t : Program × Simplification => q.BisimilarIn t.1 id id) ?_
    refine (ends_simplifyProgram hsound).mono ?_ fun _ _ h => h.elim
    rintro - _ ⟨r', s', rfl, hs', hkeeps⟩
    exact bisimilarIn_self hm hs'.models hkeeps.toKeeps hid

/-- The definition `P = (a.0 \ b) \ c`. -/
private def nestedRestrictions : Program :=
  let p := (Program.add ∅ .null).2
  let p := (p.add (.act (.visible "a" .input) 0)).2
  let p := (p.add (.restrict 1 (.ofList ["b"]))).2
  let p := (p.add (.restrict 2 (.ofList ["c"]))).2
  after (Program.define "P" 3) p

/-- The two restrictions are merged into a new node, to which the definition of `P` is redirected. -/
theorem simplify_bisimilar_nestedRestrictions :
    let t := after simplifyProgram (nestedRestrictions, ∅)
    Built nestedRestrictions ∧ t.1.node? 4 = some (.named "P" (some 5)) ∧
      nestedRestrictions.BisimilarIn t.1 4 4 := by
  have hbuilt : Built nestedRestrictions :=
    ((((Relation.ReflTransGen.refl.tail (.add rfl (by decide))).tail (.add rfl (by decide))).tail
      (.add rfl (by decide))).tail (.add rfl (by decide))).tail (.define _ "P" 3)
  exact ⟨hbuilt, rfl, (simplify_bisimilar hbuilt).2.2.2 4 (by decide)⟩

end Simplification

end ProcessCalculus
