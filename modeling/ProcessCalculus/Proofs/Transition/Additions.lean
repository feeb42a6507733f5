import ProcessCalculus.Proofs.Sharing.Interning
import ProcessCalculus.Proofs.Transition.Rules

/-!
# Expansion as a sequence of internings

An expansion changes the program in one way only: it interns term formers over processes that are there. This does not
depend on what the notes say about the program, as long as they speak of processes that are there.

* `Expansion.Issued`: the notes speak of issued processes only.
* `Expansion.Issued.successors`: a call is a sequence of internings, whether it succeeds or not.
-/

namespace ProcessCalculus

open Relation

theorem Residual.Within.mono {residual : Residual} {n n' : Nat} (h : residual.Within n) (hle : n ≤ n') :
    residual.Within n' := by
  cases residual with
  | process id => exact Nat.lt_of_lt_of_le h hle
  | node node => exact ⟨h.1, fun c hc => Nat.lt_of_lt_of_le (h.2 c hc) hle⟩

namespace Expansion

variable {k k' : Program × Expansion} {id : ProcessId}

/-- Only term formers were interned between two states. -/
def Interns (k k' : Program × Expansion) : Prop :=
  ReflTransGen Sharing.InternStep (k.1, k.2.sharing) (k'.1, k'.2.sharing)

/-- The program is well-formed, and the notes speak of its processes only. -/
structure Issued (k : Program × Expansion) : Prop where
  wellFormed : k.1.WellFormed
  term_lt (key : Node ProcessId) (id : ProcessId) : k.2.sharing.terms[key]? = some id → id < k.1.size
  target_lt {id : ProcessId} {ts : Transitions} : k.2.known[id]? = some ts → ∀ t ∈ ts, t.target < k.1.size

theorem Interns.built (h : Interns k k') : ReflTransGen BuildStep k.1 k'.1 :=
  Sharing.built_of_interns h

theorem Interns.size_le (h : Interns k k') : k.1.size ≤ k'.1.size :=
  size_le_of_built h.built

/-- What holds after a part of expansion that started from `k`. -/
def Continues (k k' : Program × Expansion) : Prop :=
  Issued k' ∧ Interns k k'

namespace Issued

theorem empty {p : Program} (hp : p.WellFormed) : Issued (p, ∅) where
  wellFormed := hp
  term_lt key id hkey := by simp [show (∅ : Expansion).sharing = ∅ from rfl] at hkey
  target_lt hts := by simp [show (∅ : Expansion).known = ∅ from rfl] at hts

/-- Internings keep the notes, if the same transitions are known after them. -/
theorem interns (hk : Issued k) (h : Interns k k') (hknown : k'.2.known = k.2.known) : Issued k' where
  wellFormed := wellFormed_of_built h.built hk.wellFormed
  term_lt := Sharing.term_lt_of_interns h hk.term_lt
  target_lt hts t ht := Nat.lt_of_lt_of_le (hk.target_lt (hknown ▸ hts) t ht) h.size_le

/-- Transitions to issued processes are entered. -/
theorem insert {p : Program} {e : Expansion} (hk : Issued (p, e)) {ts : Transitions}
    (hts : ∀ t ∈ ts, t.target < p.size) : Issued (p, { e with known := e.known.insert id ts }) where
  wellFormed := hk.wellFormed
  term_lt := hk.term_lt
  target_lt {x found} hx := by
    rw [Table.getElem?_insert] at hx
    split at hx
    · cases hx
      exact hts
    · exact hk.target_lt hx

end Issued

/-- A term former that a step leaves is interned. -/
theorem ends_settle_issued (hk : Issued k) {residual : Residual} (hw : residual.Within k.1.size) :
    Ends (settle residual) k
      (fun id k' => Continues k k' ∧ k'.2.known = k.2.known ∧ id < k'.1.size) fun _ _ => False := by
  obtain ⟨p, e⟩ := k
  cases residual with
  | process id => exact ⟨⟨hk, .refl⟩, rfl, hw⟩
  | node node =>
    unfold settle
    rw [ends_on]
    have hstep : Sharing.InternStep (p, e.sharing) (after (Sharing.intern node) (p, e.sharing)) := .intern hw.1 hw.2
    cases hkey : e.sharing.terms[node.key]? with
    | some id => exact ends_of_ok (Sharing.intern_of_known hkey) ⟨⟨hk, .refl⟩, rfl, hk.term_lt _ id hkey⟩
    | none =>
      have hok := Sharing.intern_of_unknown (p := p) hkey
      rw [after, hok] at hstep
      have hinterns : Interns (p, e) ((p.add node).2, { e with sharing := e.sharing.register p.size node }) :=
        .single hstep
      refine ends_of_ok hok ⟨⟨hk.interns hinterns rfl, hinterns⟩, rfl, ?_⟩
      rw [Program.size_add]
      exact Nat.lt_succ_self _

/-- The steps that the rules give for a node leave processes of the program, or nodes over them. -/
theorem Issued.within_of_steps (hk : Issued k) {node : Node ProcessId} (hnode : k.1.node? id = some node)
    {components : List ProcessId} {step : Action × Residual}
    (hmem : step ∈ node.steps (fun c => (k.2.known.getD c ∅).toList) components) : step.2.Within k.1.size := by
  refine Node.within_of_mem_steps (hk.wellFormed.child_lt hnode) (fun c t ht => ?_) hmem
  rw [Std.TreeMap.getD_eq_getD_getElem?] at ht
  cases hc : k.2.known[c]? with
  | none =>
    rw [hc] at ht
    exact absurd ht List.not_mem_nil
  | some ts =>
    rw [hc] at ht
    exact hk.target_lt hc t ht

/-- A process that is expanded gets transitions to processes that are there. -/
theorem ends_derive_issued (hk : Issued k) (components : List ProcessId) :
    Ends (derive id components) k (fun _ => Continues k) fun _ => Continues k := by
  obtain ⟨p, e⟩ := k
  unfold derive
  rw [ends_bind, ends_node]
  refine ⟨fun node hnode => ?_, fun _ => ⟨hk, .refl⟩⟩
  rw [ends_bind, ends_notes, ends_bind]
  refine (Ends.mapM (w := fun k => k) (I := fun k' => Continues (p, e) k' ∧ k'.2.known = e.known)
    (R := fun k' _ t => t.target < k'.1.size) (fun step hmem k' hk' => ?_) ⟨⟨hk, .refl⟩, rfl⟩).mono ?_
    fun _ _ h => False.elim h
  · obtain ⟨a, residual⟩ := step
    obtain ⟨⟨hissued, hinterns⟩, hknown⟩ := hk'
    show Ends (settle residual >>= fun target => pure (Transition.mk a target)) _ _ _
    rw [ends_bind]
    refine (ends_settle_issued hissued ((hk.within_of_steps hnode hmem).mono hinterns.size_le)).mono ?_ fun _ _ h => h
    rintro target k'' ⟨⟨hissued', hinterns'⟩, hknown', hlt⟩
    rw [ends_pure]
    exact ⟨k'', rfl, ⟨⟨hissued', hinterns.trans hinterns'⟩, hknown'.trans hknown⟩, hlt,
      fun _ _ h => Nat.lt_of_lt_of_le h hinterns'.size_le⟩
  · rintro ts _ ⟨⟨p', e'⟩, rfl, ⟨⟨hissued, hinterns⟩, hknown⟩, hts, -⟩
    rw [ends_modifyNotes]
    refine ⟨hissued.insert fun t ht => ?_, hinterns⟩
    obtain ⟨-, -, hlt⟩ := (forall₂_exists hts).2 t (TreapSet.mem_ofList.1 ht)
    exact hlt

/-- By induction on the depth. It does not matter which components there are, nor how the search ends. -/
theorem ends_expand_issued {depth : Nat} {path : List ProcessId} (hk : Issued k) :
    Ends (expand depth path id) k (fun _ => Continues k) fun _ => Continues k := by
  induction depth generalizing path id k with
  | zero => exact ⟨hk, .refl⟩
  | succ depth ih =>
    obtain ⟨p, e⟩ := k
    have hself : Continues (p, e) (p, e) := ⟨hk, .refl⟩
    unfold expand
    rw [ends_bind, ends_notes]
    split
    · exact hself
    · rw [ends_bind, ends_program, ends_bind]
      cases hcomp : p.components id with
      | error fault => exact hself
      | ok components =>
        rw [ends_ofExcept_ok rfl, ends_bind, ends_notes]
        split
        · exact hself
        · rw [ends_bind]
          refine (Ends.forM (w := fun k => k) (I := Continues (p, e)) (P := fun _ _ => True)
            (fun c _ k' hk' => ?_) hself).mono ?_ fun _ _ h => h
          · refine (ih hk'.1).mono ?_ fun _ k'' hk'' => ⟨hk''.1, hk'.2.trans hk''.2⟩
            exact fun _ k'' hk'' => ⟨k'', rfl, ⟨hk''.1, hk'.2.trans hk''.2⟩, trivial, fun _ _ => trivial⟩
          · rintro _ _ ⟨k', rfl, hk', -⟩
            exact (ends_derive_issued hk'.1 components).mono (fun _ k'' hk'' => ⟨hk''.1, hk'.2.trans hk''.2⟩)
              fun _ k'' hk'' => ⟨hk''.1, hk'.2.trans hk''.2⟩

/-- A call is a sequence of internings, whether it succeeds or not. -/
theorem Issued.successors (hk : Issued k) (id : ProcessId) : Continues k (after (successors id) k) := by
  obtain ⟨p, e⟩ := k
  refine Ends.after (P := Continues (p, e)) ?_
  unfold Expansion.successors
  rw [ends_bind, ends_program, ends_bind]
  exact ends_expand_issued hk

end Expansion

end ProcessCalculus
