import ProcessCalculus.Program.Text
import ProcessCalculus.Proofs.Calculus.Association
import ProcessCalculus.Proofs.Program.Reading

/-!
# The written form of a tree

The text of a process is the text of the tree that it denotes, as long as there are enough levels to write it.

* `Term.text`: the written form of a tree.
* `Program.Denotes.textAt_eq`, `Reading.Valid.exists_text`: the text of a process is that of its tree.
* `Term.Associated.text_eq`: the text leaves open how sums and parallel compositions are nested.
-/

namespace ProcessCalculus

open Term

namespace Term

/-- How strongly the outermost term former binds. -/
def strength : Term → Nat
  | sum .. => 0
  | parallel .. => 1
  | act .. | delay .. => 2
  | restrict .. | rename .. => 3
  | null | name _ => 4

/-- The text of a term that binds with strength `own`, in parentheses if it is to bind more strongly. -/
def enclosed (own strength : Nat) (text : String) : String :=
  if own < strength then "(" ++ text ++ ")" else text

/-- The term as text, without parentheses around it. -/
def plainText : Term → String
  | null => "0"
  | name n => n
  | sum l r => enclosed l.strength 0 l.plainText ++ " + " ++ enclosed r.strength 0 r.plainText
  | parallel l r => enclosed l.strength 1 l.plainText ++ " | " ++ enclosed r.strength 1 r.plainText
  | act a t => a.text ++ "." ++ enclosed t.strength 2 t.plainText
  | delay d t => toString d.toNat ++ "." ++ enclosed t.strength 2 t.plainText
  | restrict t labels =>
    enclosed t.strength 3 t.plainText ++ " \\ \x7b" ++ Text.join ", " labels.toList ++ "\x7d"
  | rename t renames =>
    enclosed t.strength 3 t.plainText ++ Text.bracketed (renames.renames.map fun e => e.new ++ "/" ++ e.old)

/-- The term as text that binds at least as strongly as asked. -/
def text (strength : Nat) (t : Term) : String :=
  enclosed t.strength strength t.plainText

variable (s : Nat)

theorem text_sum (l r : Term) : text s (sum l r) = enclosed 0 s (l.text 0 ++ " + " ++ r.text 0) := rfl

theorem text_parallel (l r : Term) : text s (parallel l r) = enclosed 1 s (l.text 1 ++ " | " ++ r.text 1) := rfl

theorem text_act (a : Action) (t : Term) : text s (act a t) = enclosed 2 s (a.text ++ "." ++ t.text 2) := rfl

theorem text_delay (d : UInt32) (t : Term) :
    text s (delay d t) = enclosed 2 s (toString d.toNat ++ "." ++ t.text 2) := rfl

theorem text_restrict (t : Term) (labels : LabelSet) : text s (restrict t labels) =
    enclosed 3 s (t.text 3 ++ " \\ \x7b" ++ Text.join ", " labels.toList ++ "\x7d") := rfl

theorem text_rename (t : Term) (renames : Renaming) : text s (rename t renames) =
    enclosed 3 s (t.text 3 ++ Text.bracketed (renames.renames.map fun e => e.new ++ "/" ++ e.old)) := rfl

/-- Terms that differ in what the written form leaves open are written alike. -/
theorem Associated.text_eq {t u : Term} (h : t.Associated u) (s : Nat) : t.text s = u.text s := by
  induction h generalizing s with
  | refl => rfl
  | symm _ ih => exact (ih s).symm
  | trans _ _ ih ih' => exact (ih s).trans (ih' s)
  | sumAssoc r s t => simp only [text_sum, enclosed, Nat.lt_irrefl, if_false, String.append_assoc]
  | parallelAssoc r s t => simp only [text_parallel, enclosed, Nat.lt_irrefl, if_false, String.append_assoc]
  | delayed d t => rfl
  | sum _ _ ihs iht => rw [text_sum, text_sum, ihs, iht]
  | parallel _ _ ihs iht => rw [text_parallel, text_parallel, ihs, iht]
  | act a _ ih => rw [text_act, text_act, ih]
  | restrict _ labels ih => rw [text_restrict, text_restrict, ih]
  | rename _ renames ih => rw [text_rename, text_rename, ih]
  | delay d _ ih => rw [text_delay, text_delay, ih]

end Term

namespace Program

variable {p : Program} {id : ProcessId} {t : Term} {depth : Nat}

theorem textAt_of_node {node : Node ProcessId} (h : p.node? id = some node) (depth strength : Nat) :
    p.textAt (depth + 1) strength id = Term.enclosed node.strength strength (node.textWith (p.textAt depth)) := by
  rw [textAt, h]
  rfl

/-- The text of a process is that of its tree, once there are enough levels. -/
theorem Denotes.textAt_eq (h : p.Denotes id t) (hd : t.height < depth) (strength : Nat) :
    p.textAt depth strength id = t.text strength := by
  induction h generalizing depth strength with
  | null h | named h =>
    obtain ⟨depth, rfl⟩ := Nat.exists_eq_succ_of_ne_zero (Nat.ne_zero_of_lt hd)
    exact textAt_of_node h depth strength
  | sum h _ _ ihl ihr | parallel h _ _ ihl ihr =>
    obtain ⟨depth, rfl⟩ := Nat.exists_eq_succ_of_ne_zero (Nat.ne_zero_of_lt hd)
    obtain ⟨hl, hr⟩ := Nat.max_lt.1 (Nat.lt_of_succ_lt_succ hd)
    rw [textAt_of_node h, Node.textWith, ihl hl, ihr hr]
    rfl
  | act h _ ih | restrict h _ ih | rename h _ ih | delay h _ ih =>
    obtain ⟨depth, rfl⟩ := Nat.exists_eq_succ_of_ne_zero (Nat.ne_zero_of_lt hd)
    rw [textAt_of_node h, Node.textWith, ih (Nat.lt_of_succ_lt_succ hd)]
    rfl

end Program

/-- The text of a program is written to its end: a term has less height than there are processes. -/
theorem Reading.Valid.exists_text {r : Reading} {le : Term → Term → Prop} (h : r.Valid le) (hle : Precongruence le)
    {id : ProcessId} (hid : id < r.program.size) : ∃ t, r.program.Denotes id t ∧ r.program.text id = t.text 0 := by
  obtain ⟨t, ht, hmeans⟩ := h.denotes hle hid
  have hheight : t.height ≤ id := Nat.le_trans (hle.height_le hmeans) (h.height_le hid)
  exact ⟨t, ht, ht.textAt_eq (Nat.lt_succ_of_le (Nat.le_trans hheight (Nat.le_of_lt hid))) 0⟩

end ProcessCalculus
