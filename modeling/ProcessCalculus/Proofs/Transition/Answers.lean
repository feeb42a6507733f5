import ProcessCalculus.Proofs.Order.Table
import ProcessCalculus.Proofs.Program.Reading
import ProcessCalculus.Proofs.Transition.Rules

/-!
# Answers

A set of transitions answers for a process if, up to a preorder, it holds exactly the steps of the term that the
process stands for. An answer says nothing of nodes, so it stays right while nodes are rewritten.

* `KnownTransitions.Answer`: every entry of a table is an answer.
* `KnownTransitions.Kept`: what was in the table is still there.
-/

namespace ProcessCalculus

/-- In a reading, the transitions are the steps of the term that the identifier stands for. -/
structure Answers (step : Term → Action → Term → Prop) (le : Term → Term → Prop) (r : Reading)
    (id : ProcessId) (ts : Transitions) : Prop where
  lt : id < r.program.size
  target_lt {t : Transition} : t ∈ ts → t.target < r.program.size
  enumerates : Enumerates step le (r.term id) (Listed r.term ts.toList)

namespace Answers

variable {step : Term → Action → Term → Prop} {le : Term → Term → Prop} {r r' : Reading} {id : ProcessId}
  {ts : Transitions}

theorem mono {le' : Term → Term → Prop} (h : Answers step le r id ts) (hle : ∀ {s t}, le s t → le' s t) :
    Answers step le' r id ts where
  lt := h.lt
  target_lt ht := h.target_lt ht
  enumerates := h.enumerates.mono hle

theorem keeps (h : Answers step le r id ts) (hk : r.Keeps r') : Answers step le r' id ts where
  lt := Nat.lt_of_lt_of_le h.lt hk.size_le
  target_lt ht := Nat.lt_of_lt_of_le (h.target_lt ht) hk.size_le
  enumerates := by
    rw [hk.term_eq h.lt]
    constructor
    · rintro a v ⟨t, ht, ha, rfl⟩
      exact h.enumerates.sound ⟨t, ht, ha, (hk.term_eq (h.target_lt ht)).symm⟩
    · intro a u hs
      obtain ⟨v, ⟨t, ht, ha, rfl⟩, hle⟩ := h.enumerates.complete hs
      exact ⟨_, ⟨t, ht, ha, hk.term_eq (h.target_lt ht)⟩, hle⟩

end Answers

namespace KnownTransitions

variable {step : Term → Action → Term → Prop} {le : Term → Term → Prop} {r r' : Reading} {id : ProcessId}
  {ts : Transitions} {known known' known'' : KnownTransitions}

/-- The transitions in the table answer for the processes under which they are kept. -/
def Answer (step : Term → Action → Term → Prop) (le : Term → Term → Prop) (r : Reading)
    (known : KnownTransitions) : Prop :=
  ∀ ⦃id : ProcessId⦄ ⦃ts : Transitions⦄, known[id]? = some ts → Answers step le r id ts

namespace Answer

theorem empty : (∅ : KnownTransitions).Answer step le r := by
  intro id ts h
  rw [Std.TreeMap.getElem?_emptyc] at h
  cases h

theorem keeps (h : known.Answer step le r) (hk : r.Keeps r') : known.Answer step le r' :=
  fun _ _ hid => (h hid).keeps hk

theorem insert (h : known.Answer step le r) (hts : Answers step le r id ts) :
    Answer step le r (known.insert id ts) := by
  intro other ts' ho
  rw [Table.getElem?_insert] at ho
  split at ho
  · rename_i hid
    cases ho
    exact hid ▸ hts
  · exact h ho

end Answer

/-- All answers that were known are still known. -/
def Kept (known known' : KnownTransitions) : Prop :=
  ∀ (id : ProcessId) (ts : Transitions), known[id]? = some ts → known'[id]? = some ts

namespace Kept

theorem refl (known : KnownTransitions) : known.Kept known :=
  fun _ _ h => h

theorem trans (h : known.Kept known') (h' : known'.Kept known'') : known.Kept known'' :=
  fun id ts hid => h' id ts (h id ts hid)

theorem insert (hnew : known[id]? = none) (ts : Transitions) : known.Kept (known.insert id ts) := by
  intro other ts' ho
  rw [Table.getElem?_insert, if_neg]
  · exact ho
  · rintro rfl
    rw [hnew] at ho
    cases ho

end Kept

end KnownTransitions

end ProcessCalculus
