import ProcessCalculus.Transition.Pipeline
import ProcessCalculus.Proofs.Transition.Expansion
import ProcessCalculus.Proofs.Transition.Recorded

/-!
# Steady generators

A generator that remembers its answers never gives another one. Expansion and every stage do so, on any program and with
any notes, whatever others have done to them before.

* `Generator.steady_of_table`: a table of answers that only grows.
* `Search.ends_run_keeping`: a search keeps what every visit keeps.
* `Expansion.ends_expand_kept`: expansion never enters a process twice.
* `Pipeline.steady`: every pipeline is steady.
-/

namespace ProcessCalculus

/-- A generator that finds its answers in a table of its notes, where what is there once is there ever after. -/
theorem Generator.steady_of_table {σ : Type} {g : Generator σ} (table : σ → KnownTransitions)
    (key : ProcessId → ProcessId)
    (h : ∀ id k, Ends (g id) k (fun ts t => (table k.2).Kept (table t.2) ∧ (table t.2)[key id]? = some ts)
      fun _ t => (table k.2).Kept (table t.2)) (s : Program × σ) : g.Steady s := by
  have hremembered {log : Log ProcessId Fault Transitions} {t : Program × σ} (hasked : Asked g s log t) :
      ∀ ⦃id ts⦄, (id, .ok ts) ∈ log → (table t.2)[key id]? = some ts := by
    induction hasked with
    | nil => exact fun _ _ hmem => absurd hmem List.not_mem_nil
    | @snoc log t _ i ih =>
      intro id ts hmem
      rw [List.mem_append, List.mem_singleton] at hmem
      rcases answered_of_ends (h i t) with ⟨us, hus, hkept, hi⟩ | ⟨e, he, hkept⟩
      · rcases hmem with hmem | hmem
        · exact hkept _ _ (ih hmem)
        · rw [hus] at hmem
          cases hmem
          exact hi
      · rcases hmem with hmem | hmem
        · exact hkept _ _ (ih hmem)
        · rw [he] at hmem
          cases hmem
  intro log t hasked id ts us hts hus
  rw [Option.some.inj ((hremembered hasked hts).symm.trans (hremembered hasked hus))]

theorem Search.ends_run_keeping {τ β : Type} {visit : β → ProcessId → Pass τ (List ProcessId × β)}
    {P : Program × τ → Prop} (hvisit : ∀ found x t, P t → Ends (visit found x) t (fun _ t' => P t') fun _ t' => P t')
    {limit : Nat} {stack : List ProcessId} {seen : ProcessSet} {found : β} {t : Program × τ} (ht : P t) :
    Ends (run visit limit stack seen found) t (fun _ t' => P t') fun _ t' => P t' := by
  induction limit generalizing stack seen found t with
  | zero =>
    unfold run
    cases stack.dropWhile seen.contains <;> exact ht
  | succ limit ih =>
    unfold run
    cases stack.dropWhile seen.contains with
    | nil => exact ht
    | cons x rest =>
      dsimp only
      rw [ends_bind]
      exact (hvisit found x t ht).mono (fun _ _ ht' => ih ht') fun _ _ ht' => ht'

/-- What computations keep, they keep one after the other. -/
theorem Ends.mapM_keeping {ε σ α β : Type} {f : α → EStateM ε σ β} {P : σ → Prop}
    (h : ∀ a t, P t → Ends (f a) t (fun _ t' => P t') fun _ t' => P t') {l : List α} {t : σ} (ht : P t) :
    Ends (l.mapM f) t (fun _ t' => P t') fun _ t' => P t' := by
  refine (Ends.mapM (w := fun t' => t') (I := P) (R := fun _ _ _ => True) (fun a _ t' ht' => ?_) ht).mono ?_
    fun _ _ h => h
  · exact (h a t' ht').mono (fun _ t'' ht'' => ⟨t'', rfl, ht'', trivial, fun _ _ _ => trivial⟩) fun _ _ h => h
  · rintro _ _ ⟨t', rfl, ht', -⟩
    exact ht'

namespace Expansion

variable {k t : Program × Expansion} {path components : List ProcessId} {id : ProcessId}

private theorem ends_settle_known (residual : Residual) :
    Ends (settle residual) k (fun _ t => t.2.known = k.2.known) fun _ t => t.2.known = k.2.known := by
  cases residual with
  | process id => rfl
  | node node =>
    obtain ⟨p, e⟩ := k
    rw [settle, ends_on]
    unfold Ends
    split <;> rfl

/-- Answers are kept, and what is being expanded has none yet. -/
structure Grows (path : List ProcessId) (k t : Program × Expansion) : Prop where
  kept : k.2.known.Kept t.2.known
  unknown {x : ProcessId} : x ∈ path → k.2.known[x]? = none → t.2.known[x]? = none

theorem ends_derive_kept (hnew : k.2.known[id]? = none) :
    Ends (derive id components) k
      (fun _ t => k.2.known.Kept t.2.known ∧ (∃ ts, t.2.known[id]? = some ts) ∧
        ∀ x, x ≠ id → t.2.known[x]? = k.2.known[x]?)
      fun _ t => k.2.known.Kept t.2.known := by
  obtain ⟨p, e⟩ := k
  unfold derive
  rw [ends_bind, ends_node]
  refine ⟨fun node _ => ?_, fun _ => .refl _⟩
  rw [ends_bind, ends_notes, ends_bind]
  refine (Ends.mapM_keeping (P := fun t => t.2.known = e.known) (fun step t ht => ?_) rfl).mono ?_ ?_
  · obtain ⟨a, residual⟩ := step
    show Ends (settle residual >>= fun target => pure (Transition.mk a target)) _ _ _
    rw [ends_bind]
    exact (ends_settle_known residual).mono (fun _ _ h => h.trans ht) fun _ _ h => h.trans ht
  · rintro ts ⟨p', e'⟩ hknown
    have hknown : e'.known = e.known := hknown
    rw [ends_modifyNotes]
    refine ⟨hknown ▸ .insert (hknown ▸ hnew) _, ⟨TreapSet.ofList ts, ?_⟩, fun x hx => ?_⟩
    · rw [Table.getElem?_insert, if_pos rfl]
    · rw [Table.getElem?_insert, if_neg (Ne.symm hx), hknown]
  · rintro _ ⟨p', e'⟩ hknown
    exact hknown ▸ .refl _

/-- Expansion of a process that is not being expanded already. By induction on the depth; the test for components that
are being expanded makes sure that no process is entered while it is expanded. -/
theorem ends_expand_kept {depth : Nat} (hpath : id ∈ path → ∃ ts, k.2.known[id]? = some ts) :
    Ends (expand depth path id) k (fun _ t => Grows path k t ∧ ∃ ts, t.2.known[id]? = some ts)
      fun _ t => k.2.known.Kept t.2.known := by
  induction depth generalizing k path id with
  | zero => exact .refl _
  | succ depth ih =>
    obtain ⟨p, e⟩ := k
    unfold expand
    rw [ends_bind, ends_notes]
    split
    · rename_i hknown
      rw [Std.TreeMap.contains_eq_isSome_getElem?] at hknown
      exact ⟨⟨.refl _, fun _ h => h⟩, Option.isSome_iff_exists.1 hknown⟩
    · rename_i hknown
      have hnew : e.known[id]? = none := by
        rwa [Std.TreeMap.contains_eq_isSome_getElem?, Option.not_isSome_iff_eq_none] at hknown
      rw [ends_bind, ends_program, ends_bind]
      cases hcomponents : p.components id with
      | error fault =>
        rw [ends_ofExcept_error rfl]
        exact .refl _
      | ok components =>
        rw [ends_ofExcept_ok rfl]
        dsimp only
        rw [ends_bind, ends_notes]
        split
        · exact .refl _
        · rename_i hre
          rw [ends_bind]
          have hall : Ends (components.forM (expand depth (id :: path))) (p, e)
              (fun _ t => Grows (id :: path) (p, e) t) fun _ t => e.known.Kept t.2.known := by
            refine (Ends.forM (w := fun t => t) (I := Grows (id :: path) (p, e)) (P := fun _ _ => True)
              (fun c hc t ht => ?_) ⟨.refl _, fun _ h => h⟩).mono ?_ fun _ _ h => h
            · have hc (hmem : c ∈ id :: path) : ∃ ts, t.2.known[c]? = some ts :=
                (known_of_reentered? hre hc hmem).imp fun ts => ht.kept c ts
              refine (ih hc).mono ?_ fun _ _ h => ht.kept.trans h
              rintro _ t' ⟨hgrows, -⟩
              refine ⟨t', rfl, ⟨ht.kept.trans hgrows.kept, fun hx hn => ?_⟩, trivial, fun _ _ => trivial⟩
              exact hgrows.unknown hx (ht.unknown hx hn)
            · rintro _ _ ⟨t, rfl, ht, -⟩
              exact ht
          refine hall.mono ?_ fun _ _ h => h
          intro _ t ht
          refine (ends_derive_kept (ht.unknown List.mem_cons_self hnew)).mono ?_ fun _ _ h => ht.kept.trans h
          rintro _ t' ⟨hkept, hid, hother⟩
          refine ⟨⟨ht.kept.trans hkept, fun hx hn => ?_⟩, hid⟩
          refine (hother _ ?_).trans (ht.unknown (List.mem_cons_of_mem _ hx) hn)
          -- what is being expanded is another process
          rintro rfl
          obtain ⟨ts, hts⟩ := hpath hx
          cases hts.symm.trans hnew

/-- A process that was asked for with success stays known. -/
theorem ends_successors_kept (id : ProcessId) (k : Program × Expansion) :
    Ends (successors id) k (fun ts t => k.2.known.Kept t.2.known ∧ t.2.known[id]? = some ts)
      fun _ t => k.2.known.Kept t.2.known := by
  obtain ⟨p, e⟩ := k
  unfold successors
  rw [ends_bind, ends_program, ends_bind]
  refine (ends_expand_kept fun h => absurd h List.not_mem_nil).mono ?_ fun _ _ h => h
  rintro _ ⟨p', e'⟩ ⟨hgrows, ts, hts⟩
  rw [ends_bind, ends_notes, ends_pure]
  refine ⟨hgrows.kept, ?_⟩
  rw [Std.TreeMap.getD_eq_getD_getElem?, hts]
  rfl

theorem steady (s : Program × Expansion) : successors.Steady s :=
  Generator.steady_of_table known id ends_successors_kept s

end Expansion

section Stages

variable {σ ν α : Type} {inner : Generator σ}

/-- What is asked of the generator below does not concern the notes of the stage. -/
theorem ends_inner_keeping {pass : Pass σ α} {P : ν → Prop} {t : Program × (ν × σ)} (ht : P t.2.1) :
    Ends pass.inner t (fun _ t' => P t'.2.1) fun _ t' => P t'.2.1 := by
  obtain ⟨p, n, m⟩ := t
  rw [ends_inner]
  unfold Ends
  split <;> exact ht

/-- A new answer is entered in the table. -/
private theorem ends_enter {T : ν → KnownTransitions} {n : ν} {r : ProcessId} {ts : Transitions}
    {enter : ν × σ → ν × σ} {t : Program × (ν × σ)} (hnew : ∀ us, (T n)[r]? ≠ some us)
    (ht : T t.2.1 = T n) (henter : T (enter t.2).1 = (T t.2.1).insert r ts) :
    Ends (do Pass.modifyNotes enter; return ts : Pass (ν × σ) Transitions) t
      (fun us t' => (T n).Kept (T t'.2.1) ∧ (T t'.2.1)[r]? = some us)
      fun _ t' => (T n).Kept (T t'.2.1) := by
  obtain ⟨p, k⟩ := t
  rw [ends_bind, ends_modifyNotes, ends_pure]
  dsimp only
  rw [henter, ht]
  exact ⟨.insert (Option.eq_none_iff_forall_ne_some.2 hnew) ts, by rw [Table.getElem?_insert, if_pos rfl]⟩

theorem Simplified.steady (s : Program × (Simplified × σ)) : (successors inner).Steady s := by
  refine Generator.steady_of_table (fun n => n.1.known) id (fun id k => ?_) s
  obtain ⟨p, n, m⟩ := k
  unfold successors
  rw [ends_bind, ends_notes]
  split
  · exact ⟨.refl _, by assumption⟩
  · rename_i hnew
    rw [ends_bind]
    refine (ends_inner_keeping (P := (· = n)) rfl).mono ?_ fun _ _ h => h ▸ .refl _
    rintro steps ⟨p', n', m'⟩ rfl
    rw [ends_bind, ends_outer]
    refine (Ends.mapM_keeping (P := fun t => t.2.known = n'.known) (fun step t ht => ?_) rfl).mono ?_
      fun _ _ h => h ▸ .refl _
    · obtain ⟨p', n'⟩ := t
      unfold simplify
      rw [ends_bind, ends_on]
      unfold Ends
      split <;> exact ht
    · exact fun steps t ht => ends_enter (T := Simplified.known) hnew ht rfl

namespace Saturation

variable {limit : Nat} {k : Program × (Saturation × σ)}

/-- Silent closures do not enter answers. -/
private theorem ends_silentClosure_known (id : ProcessId) :
    Ends (silentClosure limit inner id) k (fun _ t => t.2.1.known = k.2.1.known)
      fun _ t => t.2.1.known = k.2.1.known := by
  obtain ⟨p, n, m⟩ := k
  unfold silentClosure
  rw [ends_bind, ends_notes]
  split
  · rfl
  · dsimp only
    rw [ends_bind]
    refine (Search.ends_run_keeping (P := fun t => t.2.1.known = n.known) (fun _ x t ht => ?_) rfl).mono ?_
      fun _ _ h => h
    · rw [ends_bind]
      exact ends_inner_keeping (P := fun n' : Saturation => n'.known = n.known) ht
    · exact fun _ ⟨p', n', m'⟩ h => h

private theorem ends_saturate_known (found : Transitions) (x : ProcessId) :
    Ends (saturate limit inner found x) k (fun _ t => t.2.1.known = k.2.1.known)
      fun _ t => t.2.1.known = k.2.1.known := by
  unfold saturate
  rw [ends_bind]
  refine (ends_inner_keeping (P := (·.known = k.2.1.known)) rfl).mono (fun steps t ht => ?_) fun _ _ h => h
  rw [ends_bind]
  refine (Ends.foldlM (w := fun t => t) (I := fun t _ => t.2.1.known = k.2.1.known) (P := fun _ _ _ => True)
    (fun step _ t found ht => ?_) ht).mono ?_ fun _ _ h => h
  · unfold addSaturated
    rw [ends_bind]
    exact (ends_silentClosure_known step.target).mono
      (fun _ t' ht' => ⟨t', rfl, ht'.trans ht, trivial, fun _ _ => trivial⟩)
      fun _ _ ht' => ht'.trans ht
  · rintro _ _ ⟨t, rfl, ht, -⟩
    exact ht

theorem steady (s : Program × (Saturation × σ)) : (successors limit inner).Steady s := by
  refine Generator.steady_of_table (fun n => n.1.known) id (fun id k => ?_) s
  obtain ⟨p, n, m⟩ := k
  unfold successors
  rw [ends_bind, ends_notes]
  split
  · exact ⟨.refl _, by assumption⟩
  · rename_i hnew
    rw [ends_bind]
    refine (Search.ends_run_keeping (P := fun t => t.2.1.known = n.known)
      (fun found x t ht => (ends_saturate_known found x).mono (fun _ _ h => h.trans ht) fun _ _ h => h.trans ht)
      rfl).mono ?_ fun _ _ h => h ▸ .refl _
    exact fun _ t ht => ends_enter (T := Saturation.known) hnew ht rfl

end Saturation

theorem Classes.steady (classOf : ProcessId → ProcessClass) (s : Program × (KnownTransitions × σ)) :
    (successors classOf inner).Steady s := by
  refine Generator.steady_of_table Prod.fst (fun id => (classOf id).representative) (fun id k => ?_) s
  obtain ⟨p, n, m⟩ := k
  unfold successors
  rw [ends_bind]
  unfold classFor
  split
  · rw [ends_ofExcept_ok rfl, ends_bind, ends_notes]
    split
    · exact ⟨.refl _, by assumption⟩
    · rename_i hnew
      rw [ends_bind]
      refine (Ends.mapM_keeping (P := fun t => t.2.1 = n) (fun x t ht => ?_) rfl).mono ?_ fun _ _ h => h ▸ .refl _
      · unfold memberSteps
        rw [ends_bind]
        refine (ends_inner_keeping (P := (· = n)) ht).mono (fun steps t' ht' => ?_) fun _ _ h => h
        cases hsteps : steps.toList.mapM (represent classOf) with
        | ok steps => rwa [ends_ofExcept_ok rfl]
        | error e => rwa [ends_ofExcept_error rfl]
      · exact fun _ t ht => ends_enter (T := fun n => n) hnew ht rfl
  · exact .refl _

end Stages

/-- No stack of stages ever changes an answer, whatever its notes are to begin with. -/
theorem Pipeline.steady (stages : List Stage) (s : Program × Notes stages) : (generator stages).Steady s := by
  cases stages with
  | nil => exact Expansion.steady s
  | cons stage stages =>
    cases stage with
    | simplified => exact Simplified.steady s
    | saturated => exact Saturation.steady s
    | classes classOf => exact Classes.steady classOf s

end ProcessCalculus
