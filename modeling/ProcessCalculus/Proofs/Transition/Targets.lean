import ProcessCalculus.Proofs.Program.Questions
import ProcessCalculus.Proofs.Simplification.Bisimilarity
import ProcessCalculus.Proofs.Simplification.NormalForms
import ProcessCalculus.Proofs.Transition.History
import ProcessCalculus.Proofs.Transition.Simplified

/-!
# Targets in normal form

A stage that simplifies targets writes nodes while the expansion below it adds new ones, over nodes that were visited
and nodes that were not. Still an answer is the answer of the expansion, with the form of each target, and the targets
are settled: what is below them is never written again.

* `Simplified.Start`: a stage above expansion, with fresh notes or with those of a simplified program.
* `Simplified.Invariant`, `Simplified.Later`: what holds before and after each question, and what a question keeps.
* `Simplified.ends_successors`: the step by which all of this is kept.
* `Program.SameBelow`, `Simplified.Settled`: what is asked of targets in the end.
* `Simplified.successors_normalForm`: targets are in normal form and stay as they are, whatever is asked later.
-/

namespace ProcessCalculus

open Relation Term

namespace Program

variable {p q : Program} {id : ProcessId}

/-- The same processes are below the identifier in both programs, and they have the same nodes. -/
structure SameBelow (p q : Program) (id : ProcessId) : Prop where
  below_iff {x : ProcessId} : ReflTransGen q.Child id x ↔ ReflTransGen p.Child id x
  node?_eq {x : ProcessId} : ReflTransGen p.Child id x → q.node? x = p.node? x

theorem SameBelow.of_node?_eq (h : ∀ x, ReflTransGen p.Child id x → q.node? x = p.node? x) : SameBelow p q id where
  below_iff {x} := by
    constructor
    · intro hx
      induction hx with
      | refl => exact .refl
      | tail _ hchild ih =>
        obtain ⟨node, hnode, hc⟩ := hchild
        exact ih.tail ⟨node, (h _ ih).symm.trans hnode, hc⟩
    · intro hx
      induction hx with
      | refl => exact .refl
      | tail hbelow hchild ih =>
        obtain ⟨node, hnode, hc⟩ := hchild
        exact ih.tail ⟨node, (h _ hbelow).trans hnode, hc⟩
  node?_eq := h _

end Program

namespace Simplification

variable {p : Program} {s : Simplification} {t t' : Program × Simplification} {id form : ProcessId}

/-- A form that is known is answered. -/
theorem answer_of_form? (hform : s.form? id = some form) : answer (simplify id) (p, s) = .ok form := by
  have hends : Ends (simplify id) (p, s) (fun f _ => f = form) fun _ _ => False := by
    unfold simplify
    rw [ends_bind, ends_program]
    unfold Program.depthBound visit
    rw [ends_bind, ends_notes, hform]
    rfl
  obtain ⟨f, t, hok, rfl⟩ := hends.exists_ok
  rw [answer, hok]

/-- What is below a form is left alone. -/
theorem Formed.sameBelow (h : Formed t) (hr : Retains t t') (hform : t.2.form? form = some form) :
    t.1.SameBelow t'.1 form :=
  .of_node?_eq fun _ hx => hr.node?_eq (h.form?_of_below hform hx)

end Simplification

namespace Simplified

open Simplification

/-- A stage with fresh notes above expansion, whatever that was asked before, or one that goes on with the notes of a
program that was just simplified. -/
inductive Start : Program × (Simplified × Expansion) → Prop
  | fresh {p : Program} {e : Expansion} (h : ExpansionHistory (p, e)) : Start (p, ∅, e)
  | simplified {p q : Program} {e : Expansion} {s : Simplification} (h : ExpansionHistory (p, e))
      (hok : simplifyProgram (p, ∅) = .ok () (q, s)) : Start (q, { simplification := s }, e)

/-- The second set holds the transitions of the first one, with the forms of their targets. -/
structure Image (s : Simplification) (us ts : Transitions) : Prop where
  mem_iff {x : Transition} : x ∈ ts ↔ ∃ u ∈ us, x.action = u.action ∧ s.form? u.target = some x.target
  exists_form {u : Transition} : u ∈ us → ∃ form, s.form? u.target = some form

/-- What holds of the notes of the stage and of the expansion below it. -/
structure Invariant (defs : String → Term → Prop) (r : Reading) (n : Simplified) (e : Expansion) : Prop where
  expansion : Expansion.Sound defs Simplifies r e
  simplification : Simplification.Sound defs r n.simplification
  formed : Formed (r.program, n.simplification)
  image {id : ProcessId} {ts : Transitions} :
    n.known[id]? = some ts → ∃ us, e.known[id]? = some us ∧ Image n.simplification us ts

/-- What was visited is left alone, and answers of the expansion are kept. -/
structure Later (t t' : Program × (Simplified × Expansion)) : Prop where
  retains : Retains (t.1, t.2.1.simplification) (t'.1, t'.2.1.simplification)
  kept : t.2.2.known.Kept t'.2.2.known

variable {defs : String → Term → Prop} {r r' : Reading} {n n' : Simplified} {e e' : Expansion} {id : ProcessId}
  {k t t' t'' : Program × (Simplified × Expansion)} {log : Log ProcessId Fault Transitions} {us ts : Transitions}

namespace Image

variable {s s' : Simplification}

theorem keeps (h : Image s us ts) (hs : ∀ {id form}, s.form? id = some form → s'.form? id = some form) :
    Image s' us ts where
  mem_iff {x} := by
    rw [h.mem_iff]
    refine exists_congr fun u => and_congr_right fun hu => and_congr_right fun _ => ⟨hs, fun hx => ?_⟩
    obtain ⟨form, hform⟩ := h.exists_form hu
    rw [hform, Option.some.inj ((hs hform).symm.trans hx)]
  exists_form hu := (h.exists_form hu).imp fun _ => hs

theorem of_forall₂ {steps : List Transition}
    (h : List.Forall₂ (fun u x => x.action = u.action ∧ s.form? u.target = some x.target) us.toList steps) :
    Image s us (TreapSet.ofList steps) where
  mem_iff {x} := by
    rw [TreapSet.mem_ofList]
    constructor
    · exact (forall₂_exists h).2 x
    · rintro ⟨u, hu, haction, hform⟩
      obtain ⟨y, hy, haction', hform'⟩ := (forall₂_exists h).1 u hu
      obtain rfl : y = x := by
        cases x
        cases y
        cases haction.trans haction'.symm
        cases hform.symm.trans hform'
        rfl
      exact hy
  exists_form hu := by
    obtain ⟨x, -, -, hform⟩ := (forall₂_exists h).1 _ hu
    exact ⟨x.target, hform⟩

/-- In the state in which the forms are known, they are what simplification answers. -/
theorem mem_iff_answer (h : Image s us ts) (p : Program) {x : Transition} :
    x ∈ ts ↔ ∃ u ∈ us, x.action = u.action ∧ answer (Simplification.simplify u.target) (p, s) = .ok x.target := by
  rw [h.mem_iff]
  refine exists_congr fun u => and_congr_right fun hu => and_congr_right fun _ => ?_
  obtain ⟨form, hform⟩ := h.exists_form hu
  rw [answer_of_form? hform, hform, Option.some_inj, Except.ok.injEq]

end Image

namespace Later

theorem refl (t : Program × (Simplified × Expansion)) : Later t t :=
  ⟨.refl _, .refl _⟩

theorem trans (h : Later t t') (h' : Later t' t'') : Later t t'' :=
  ⟨h.retains.trans h'.retains, h.kept.trans h'.kept⟩

end Later

namespace Invariant

/-- The expansion below adds nodes and answers. -/
theorem expanded (h : Invariant defs r n e) (hl : Expansion.Later defs Simplifies r e r' e') :
    Invariant defs r' n e' ∧ Later (r.program, n, e) (r'.program, n, e') := by
  obtain ⟨hs, hext, hkept, -⟩ := hl
  have hformed : Formed (r'.program, n.simplification) :=
    h.formed.of_node?_eq hext.size_le fun x hx => hext.node?_eq hx
  refine ⟨⟨hs, h.simplification.keeps hext.toKeeps hs.models, hformed, fun hts => ?_⟩,
    ⟨⟨hext.size_le, fun hf => hf, fun hf => hext.node?_eq (h.formed.lt hf)⟩, hkept⟩⟩
  obtain ⟨us, hus, himage⟩ := h.image hts
  exact ⟨us, hkept _ us hus, himage⟩

/-- Simplification of a target writes nodes that were not visited yet. -/
theorem ends_simplify (h : Invariant defs r n e) {u : Transition} (hu : u.target < r.program.size) :
    Ends (simplify u) (r.program, n)
      (fun x t => ∃ r' n', t = (r'.program, n') ∧ Invariant defs r' n' e ∧ r.Rewrites r' ∧
        Later (r.program, n, e) (r'.program, n', e) ∧ x.action = u.action ∧
        n'.simplification.form? u.target = some x.target)
      fun _ _ => False := by
  unfold simplify
  rw [ends_bind, ends_on]
  refine (h.simplification.ends_simplify_below h.formed hu).mono ?_ fun _ _ h => h
  rintro form _ ⟨⟨r', s', rfl, hs', hrw, -⟩, hvisits, hform⟩
  rw [ends_pure]
  have hretains := hvisits.retains h.formed
  refine ⟨r', { n with simplification := s' }, rfl,
    ⟨h.expansion.keeps hrw.toKeeps hs'.models, hs', hvisits.formed h.formed, fun hts => ?_⟩, hrw,
    ⟨hretains, .refl _⟩, rfl, hform⟩
  obtain ⟨us, hus, himage⟩ := h.image hts
  exact ⟨us, hus, himage.keeps hretains.form?_eq⟩

/-- The forms of targets are found one after the other, and those that were found stay. -/
theorem ends_simplifyAll (h : Invariant defs r n e) {steps : List Transition}
    (hsteps : ∀ u ∈ steps, u.target < r.program.size) :
    Ends (steps.mapM simplify) (r.program, n)
      (fun steps' t => ∃ r' n', t = (r'.program, n') ∧ Invariant defs r' n' e ∧ r.Rewrites r' ∧
        Later (r.program, n, e) (r'.program, n', e) ∧
        List.Forall₂ (fun u x => x.action = u.action ∧ n'.simplification.form? u.target = some x.target) steps steps')
      fun _ _ => False := by
  refine (Ends.mapM (w := fun k : Reading × Simplified => (k.1.program, k.2))
    (I := fun k => Invariant defs k.1 k.2 e ∧ r.Rewrites k.1 ∧ Later (r.program, n, e) (k.1.program, k.2, e))
    (R := fun k u x => x.action = u.action ∧ k.2.simplification.form? u.target = some x.target)
    (fun u hu k hk => ?_) (k := (r, n)) ⟨h, .refl r, .refl _⟩).mono ?_ fun _ _ h => h
  · obtain ⟨hi, hrw, hlater⟩ := hk
    refine (hi.ends_simplify (Nat.lt_of_lt_of_le (hsteps u hu) hrw.size_le)).mono ?_ fun _ _ h => h
    rintro x _ ⟨r', n', rfl, hi', hrw', hlater', haction, hform⟩
    exact ⟨(r', n'), rfl, ⟨hi', hrw.trans hrw', hlater.trans hlater'⟩, ⟨haction, hform⟩,
      fun _ _ h => ⟨h.1, hlater'.retains.form?_eq h.2⟩⟩
  · rintro steps' _ ⟨⟨r', n'⟩, rfl, ⟨hi', hrw, hlater⟩, hforms, -⟩
    exact ⟨r', n', rfl, hi', hrw, hlater, hforms⟩

/-- An answer is entered. -/
theorem insert (h : Invariant defs r n e) (hus : e.known[id]? = some us) (himage : Image n.simplification us ts) :
    Invariant defs r { n with known := n.known.insert id ts } e where
  expansion := h.expansion
  simplification := h.simplification
  formed := h.formed
  image {x ts'} hx := by
    rw [Table.getElem?_insert] at hx
    split at hx
    · rename_i hid
      cases hx
      exact ⟨us, hid ▸ hus, himage⟩
    · exact h.image hx

end Invariant

/-- The first set holds transitions to processes of a program, in a reading, and the second one holds them with the
forms that are known of these processes later. -/
structure Matched (defs : String → Term → Prop) (r r' : Reading) (n : Simplified) (us ts : Transitions) : Prop where
  models : r.Models Simplifies defs
  keeps : r.Keeps r'
  target_lt {u : Transition} : u ∈ us → u.target < r.program.size
  image : Image n.simplification us ts

/-- One question: whether it was asked before or not, the stage answers what the expansion would, with the forms of
targets, and fails where that fails. -/
theorem ends_successors (h : Invariant defs r n e) (id : ProcessId) :
    Ends (successors Expansion.successors id) (r.program, n, e)
      (fun ts t => ∃ r' n' e', t = (r'.program, n', e') ∧ Invariant defs r' n' e' ∧ Later (r.program, n, e) t ∧
        ∃ us r₁ e₁, Expansion.successors id (r.program, e) = .ok us (r₁.program, e₁) ∧ Matched defs r₁ r' n' us ts)
      fun fault t => ∃ r' n' e', t = (r'.program, n', e') ∧ Invariant defs r' n' e' ∧ Later (r.program, n, e) t ∧
        ∃ k, Expansion.successors id (r.program, e) = .error fault k := by
  unfold successors
  rw [ends_bind, ends_notes]
  split
  · rename_i ts hts
    -- the expansion still knows the answer from which this one was made
    obtain ⟨us, hus, himage⟩ := h.image hts
    exact ⟨r, n, e, rfl, h, .refl _, us, r, e, Expansion.successors_of_known hus, h.expansion.models, .refl r,
      (h.expansion.answers hus).target_lt, himage⟩
  · rw [ends_bind, ends_inner]
    refine ((Expansion.ends_successors Simplifies.precongruence h.expansion).and (ends_outcome _ _)).mono ?_ ?_
    · rintro us _ ⟨⟨r₁, e₁, rfl, hl, hus⟩, hok⟩
      obtain ⟨h₁, hlater₁⟩ := h.expanded hl
      have hanswers := h₁.expansion.answers hus
      rw [ends_bind, ends_outer]
      refine (h₁.ends_simplifyAll fun u hu => hanswers.target_lt hu).mono ?_ fun _ _ h => h.elim
      rintro steps _ ⟨r₂, n₂, rfl, h₂, hrw, hlater₂, hforms⟩
      rw [ends_bind, ends_modifyNotes, ends_pure]
      have himage := Image.of_forall₂ hforms
      have hlater := hlater₁.trans hlater₂
      exact ⟨r₂, _, e₁, rfl, h₂.insert hus himage, ⟨hlater.retains, hlater.kept⟩, us, r₁, e₁, hok,
        h₁.expansion.models, hrw.toKeeps, hanswers.target_lt, himage⟩
    · rintro fault _ ⟨⟨⟨r₁, e₁, rfl, hl⟩, -⟩, herror⟩
      obtain ⟨h₁, hlater₁⟩ := h.expanded hl
      exact ⟨r₁, n, e₁, rfl, h₁, hlater₁, _, herror⟩

theorem Start.exists_invariant (h : Start k) :
    ∃ defs r n e, k = (r.program, n, e) ∧ Invariant defs r n e := by
  have hnone {n : Simplified} (hn : n.known = ∅) {e : Expansion} (id : ProcessId) (ts : Transitions)
      (hts : n.known[id]? = some ts) : ∃ us, e.known[id]? = some us ∧ Image n.simplification us ts := by
    rw [hn, Std.TreeMap.getElem?_emptyc] at hts
    cases hts
  cases h with
  | @fresh p e h =>
    obtain ⟨r, defs, rfl, hs⟩ := h.exists_sound
    have hs := hs.mono Reordered.simplifies
    exact ⟨defs, r, ∅, e, rfl, hs, .of_models hs.models, .empty _, fun hts => hnone rfl _ _ hts⟩
  | @simplified p q e s h hok =>
    obtain ⟨r, defs, rfl, hs⟩ := h.exists_sound
    have hs := hs.mono Reordered.simplifies
    obtain ⟨r', s', heq, hs', hpreserves, hmoves⟩ :=
      ((Simplification.Sound.of_models hs.models).ends_simplifyProgram_moves (.empty _)).of_ok hok
    cases heq
    exact ⟨defs, r', { simplification := s }, e, rfl, hs.keeps hpreserves.toKeeps hs'.models, hs',
      Simplification.Formed.moves (.empty _) hmoves, fun hts => hnone rfl _ _ hts⟩

/-- The invariant holds after every run, and what a run starts with is kept. -/
theorem Invariant.exists_later (h : Invariant defs r n e)
    (hasked : Asked (successors Expansion.successors) (r.program, n, e) log t) :
    ∃ r' n' e', t = (r'.program, n', e') ∧ Invariant defs r' n' e' ∧ Later (r.program, n, e) t := by
  induction hasked with
  | nil => exact ⟨r, n, e, rfl, h, .refl _⟩
  | snoc _ id ih =>
    obtain ⟨r₁, n₁, e₁, rfl, h₁, hlater⟩ := ih
    refine Ends.after (P := fun t => ∃ r' n' e', t = (r'.program, n', e') ∧ Invariant defs r' n' e' ∧
      Later (r.program, n, e) t) ((ends_successors h₁ id).mono ?_ ?_)
    · rintro _ _ ⟨r₂, n₂, e₂, rfl, h₂, hlater₂, -⟩
      exact ⟨r₂, n₂, e₂, rfl, h₂, hlater.trans hlater₂⟩
    · rintro _ _ ⟨r₂, n₂, e₂, rfl, h₂, hlater₂, -⟩
      exact ⟨r₂, n₂, e₂, rfl, h₂, hlater.trans hlater₂⟩

/-- In a state of the stage, the second set holds the transitions of the first one with what simplification answers for
their targets. This is bisimilar to what the target was in the program in which the expansion answered. It is in normal
form, and whatever is asked later, it is in normal form then, with the same nodes below it. -/
structure Settled (p : Program) (t : Program × (Simplified × Expansion)) (us ts : Transitions) : Prop where
  mem_iff {x : Transition} : x ∈ ts ↔
    ∃ u ∈ us, x.action = u.action ∧ answer (Simplification.simplify u.target) (t.1, t.2.1.simplification) = .ok x.target
  bisimilar {u : Transition} {form : ProcessId} : u ∈ us →
    answer (Simplification.simplify u.target) (t.1, t.2.1.simplification) = .ok form →
      p.BisimilarIn t.1 u.target form
  normalForm {x : Transition} : x ∈ ts → t.1.NormalForm x.target
  later {x : Transition} {log : Log ProcessId Fault Transitions} {t' : Program × (Simplified × Expansion)} :
    x ∈ ts → Asked (successors Expansion.successors) t log t' →
      t.1.SameBelow t'.1 x.target ∧ t'.1.NormalForm x.target

theorem Invariant.settled {r₁ : Reading} (h : Invariant defs r n e) (hmatched : Matched defs r₁ r n us ts) :
    Settled r₁.program (r.program, n, e) us ts where
  mem_iff := hmatched.image.mem_iff_answer r.program
  bisimilar {u form} hu hanswer := by
    obtain ⟨form', hform⟩ := hmatched.image.exists_form hu
    obtain rfl : form' = form := Except.ok.inj ((answer_of_form? hform).symm.trans hanswer)
    have hisForm := h.simplification.isForm hform
    have hlt := hmatched.target_lt hu
    refine .of_simplifies hmatched.models h.simplification.models hlt hisForm.form_lt ?_
    rw [← hmatched.keeps.term_eq hlt]
    exact hisForm.simplifies
  normalForm hx := by
    obtain ⟨u, -, -, hform⟩ := hmatched.image.mem_iff.1 hx
    exact h.formed.normalForm hform
  later hx hasked := by
    obtain ⟨u, -, -, hform⟩ := hmatched.image.mem_iff.1 hx
    obtain ⟨r', n', e', rfl, h', hlater⟩ := h.exists_later hasked
    exact ⟨h.formed.sameBelow hlater.retains (h.formed hform).form_form,
      h'.formed.normalForm (hlater.retains.form?_eq hform)⟩

/-- At any time in any run of questions to the stage, the answer for a process is the one that the expansion would give
then, with the forms of targets, or the same fault. The forms are bisimilar to the targets, and in the state after the
question they are in normal form. Whatever is asked later, they stay so, and what is below them stays as it is. -/
theorem successors_normalForm (hk : Start k) (hasked : Asked (successors Expansion.successors) k log t)
    (id : ProcessId) :
    (∀ fault below, Expansion.successors id (t.1, t.2.2) = .error fault below →
      ∃ t', successors Expansion.successors id t = .error fault t') ∧
    ∀ us below, Expansion.successors id (t.1, t.2.2) = .ok us below →
      ∃ ts t', successors Expansion.successors id t = .ok ts t' ∧ Settled below.1 t' us ts := by
  obtain ⟨defs, r₀, n₀, e₀, rfl, h₀⟩ := hk.exists_invariant
  obtain ⟨r, n, e, rfl, h, -⟩ := h₀.exists_later hasked
  have hends := ends_successors h id
  cases hrun : successors Expansion.successors id (r.program, n, e) with
  | ok ts t' =>
    obtain ⟨r', n', e', rfl, h', -, us', r₁, e₁, hok', hmatched⟩ := hends.of_ok hrun
    refine ⟨fun fault below herror => ?_, fun us below hok => ⟨ts, _, rfl, ?_⟩⟩
    · cases hok'.symm.trans herror
    · cases hok'.symm.trans hok
      exact h'.settled hmatched
  | error fault' t' =>
    obtain ⟨-, -, -, -, -, -, below', herror'⟩ := hends.of_error hrun
    refine ⟨fun fault below herror => ⟨t', ?_⟩, fun us below hok => ?_⟩
    · cases herror'.symm.trans herror
      rfl
    · cases herror'.symm.trans hok

/-- The term `(a.(b.0 \ c)) \ d`, with the identifier 4, and `a.(b.0 \ c)`, with 3. -/
private def restrictedTarget : Program :=
  let p := (Program.add ∅ .null).2
  let p := (p.add (.act (.visible "b" .input) 0)).2
  let p := (p.add (.restrict 1 (.ofList ["c"]))).2
  let p := (p.add (.act (.visible "a" .input) 2)).2
  (p.add (.restrict 3 (.ofList ["d"]))).2

/-- The process 3 was asked for before, so its target has a form. The target of 4 is a new node of the expansion over
that form, and the two restrictions are merged into the next node. -/
theorem successors_normalForm_restrictedTarget :
    let asked := after (successors Expansion.successors 3) (restrictedTarget, ∅, ∅)
    Built restrictedTarget ∧ Start (restrictedTarget, ∅, ∅) ∧
      (∃ log, Asked (successors Expansion.successors) (restrictedTarget, ∅, ∅) log asked) ∧
      ∃ us below ts t', Expansion.successors 4 (asked.1, asked.2.2) = .ok us below ∧
        us.toList = [⟨.visible "a" .input, 5⟩] ∧ successors Expansion.successors 4 asked = .ok ts t' ∧
        ts.toList = [⟨.visible "a" .input, 6⟩] ∧ Settled below.1 t' us ts := by
  intro asked
  have hbuilt : Built restrictedTarget :=
    ((((Relation.ReflTransGen.refl.tail (.add rfl (by decide))).tail (.add rfl (by decide))).tail
      (.add rfl (by decide))).tail (.add rfl (by decide))).tail (.add rfl (by decide))
  have hstart : Start (restrictedTarget, ∅, ∅) := .fresh (.fresh (.of_built hbuilt))
  have hasked : Asked (successors Expansion.successors) (restrictedTarget, ∅, ∅) _ asked := Asked.nil.snoc 3
  have hinner : (match Expansion.successors 4 (asked.1, asked.2.2) with
      | .ok us _ => decide (us.toList = [⟨.visible "a" .input, 5⟩])
      | _ => false) = true := by
    decide +kernel
  have houter : (match successors Expansion.successors 4 asked with
      | .ok ts _ => decide (ts.toList = [⟨.visible "a" .input, 6⟩])
      | _ => false) = true := by
    decide +kernel
  split at hinner
  case h_2 => cases hinner
  rename_i us below hus
  obtain ⟨ts, t', hts, hsettled⟩ := (successors_normalForm hstart hasked 4).2 us below hus
  rw [hts] at houter
  exact ⟨hbuilt, hstart, ⟨_, hasked⟩, us, below, ts, t', hus, of_decide_eq_true hinner, hts,
    of_decide_eq_true houter, hsettled⟩

end Simplified

end ProcessCalculus
