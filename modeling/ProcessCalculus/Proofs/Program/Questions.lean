import ProcessCalculus.Proofs.Program.Outcome

/-!
# Questions

A computation with a state can be asked one question after the other. A log lists what it was asked and what it
answered, also where it failed.

* `Asked`: the logs of questions that are put from a state on.
* `Asked.ends`: one more question, whichever way it ends.
-/

namespace ProcessCalculus

variable {ε σ ι α : Type}

/-- Questions with their answers or faults, the earliest first. -/
abbrev Log (ι ε α : Type) := List (ι × Except ε α)

/-- Nothing in the log failed. -/
def Log.Succeeds (log : Log ι ε α) : Prop :=
  ∀ q ∈ log, ∃ a, q.2 = .ok a

/-- The questions of the log were put to `f` from the state `s` on, with these outcomes and this state in the end. -/
inductive Asked (f : ι → EStateM ε σ α) (s : σ) : Log ι ε α → σ → Prop
  | nil : Asked f s [] s
  | snoc {log : Log ι ε α} {t : σ} (h : Asked f s log t) (i : ι) :
      Asked f s (log ++ [(i, answer (f i) t)]) (after (f i) t)

namespace Log.Succeeds

variable {log log' : Log ι ε α}

theorem nil : Succeeds ([] : Log ι ε α) :=
  fun _ hq => absurd hq List.not_mem_nil

theorem append (h : Succeeds log) (h' : Succeeds log') : Succeeds (log ++ log') :=
  fun q hq => (List.mem_append.1 hq).elim (h q) (h' q)

theorem singleton (i : ι) (a : α) : Succeeds ([(i, .ok a)] : Log ι ε α) := by
  intro q hq
  rw [List.mem_singleton.1 hq]
  exact ⟨a, rfl⟩

end Log.Succeeds

namespace Asked

variable {f : ι → EStateM ε σ α} {s t : σ} {log : Log ι ε α}

theorem ends (h : Asked f s log t) (i : ι) :
    Ends (f i) t (fun a t' => Asked f s (log ++ [(i, .ok a)]) t')
      fun e t' => Asked f s (log ++ [(i, .error e)]) t' := by
  have hnext := h.snoc i
  unfold Ends
  cases hi : f i t with
  | ok a t' => simpa [answer, after, hi] using hnext
  | error e t' => simpa [answer, after, hi] using hnext

theorem snoc_ok (h : Asked f s log t) {i : ι} {a : α} {t' : σ} (hi : f i t = .ok a t') :
    Asked f s (log ++ [(i, .ok a)]) t' :=
  (h.ends i).of_ok hi

end Asked

/-- How a computation ends, said of its answer and of the state after it. -/
theorem answered_of_ends {c : EStateM ε σ α} {s : σ} {post : α → σ → Prop} {fail : ε → σ → Prop}
    (h : Ends c s post fail) :
    (∃ a, answer c s = .ok a ∧ post a (after c s)) ∨ ∃ e, answer c s = .error e ∧ fail e (after c s) := by
  unfold Ends at h
  unfold answer after
  cases hc : c s with
  | ok a t =>
    rw [hc] at h
    exact .inl ⟨a, rfl, h⟩
  | error e t =>
    rw [hc] at h
    exact .inr ⟨e, rfl, h⟩

end ProcessCalculus
