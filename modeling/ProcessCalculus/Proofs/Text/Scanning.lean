import ProcessCalculus.Program.Text
import ProcessCalculus.Proofs.Calculus.Association

/-!
# Reading terms

A reader goes through a text character by character. It keeps what it has read of each pair of parentheses that is still
open, the word that it is in, and the words of a list of labels.

* `Text.isIdentifier`: the names and labels that can be told from the rest of a text.
* `TermReader`, `TermReader.step`: the state of the reader, and what it does with one character.
* `TermReader.Frame.close`, `TermReader.Frame.Alike`: what was read of a sum, a parallel composition or a prefix, once
  it ends.
* `TermReader.Lists`: texts that are read as lists of words.
-/

namespace ProcessCalculus

open Std SortedList

/-! ### Words -/

namespace Text

/-- A letter, or any character beyond ASCII, as are the letters of other scripts. -/
def isLetter (c : Char) : Bool :=
  c.isAlpha || 128 ≤ c.toNat

def isWordChar (c : Char) : Bool :=
  isLetter c || c.isDigit || c == '_'

/-- A letter, followed by letters, digits and underscores. -/
def isIdentifier (s : String) : Bool :=
  match s.toList with
  | [] => false
  | c :: cs => isLetter c && cs.all isWordChar

end Text

/-- What has been read inside a pair of parentheses: the sum and the parallel composition to the left, the prefixes that
are waiting for their term, the latest first, and the operand that was read last. -/
structure TermReader.Frame where
  summands : Option Term := none
  sides : Option Term := none
  prefixes : List Action := []
  operand : Term := .null

/-- The state of a reader: the frames around the present one, and the word and the words of a list that are being
read. -/
structure TermReader where
  outer : List TermReader.Frame := []
  frame : TermReader.Frame := {}
  word : List Char := []
  words : List String := []

namespace TermReader

namespace Frame

/-- A term next to what stands to its left. -/
def joined (former : Term → Term → Term) : Option Term → Term → Term
  | none, t => t
  | some s, t => former s t

/-- The prefixes are put before the operand. -/
def closePrefixes (f : Frame) : Frame :=
  { f with prefixes := [], operand := f.prefixes.foldl (fun t a => .act a t) f.operand }

def closeSides (f : Frame) : Frame :=
  { f with sides := none, operand := joined .parallel f.sides f.operand }

def closeSummands (f : Frame) : Frame :=
  { f with summands := none, operand := joined .sum f.summands f.operand }

/-- What binds at least as strongly as asked is taken together as one operand. -/
def close : (strength : Nat) → Frame → Frame
  | 0, f => f.closePrefixes.closeSides.closeSummands
  | 1, f => f.closePrefixes.closeSides
  | 2, f => f.closePrefixes
  | _, f => f

end Frame

/-- The action that a word before a dot says. -/
def actionOf (word : List Char) : Action :=
  match word with
  | '\x27' :: label => .visible (String.ofList label) .output
  | _ =>
    if word = "tau".toList then .silent
    else if word.all Char.isDigit then .delay (UInt32.ofNat (Nat.ofDigitChars 10 word 0))
    else .visible (String.ofList word) .input

/-- The term that a word says otherwise. -/
def operandOf (word : List Char) : Term :=
  if word = ['0'] then .null else .name (String.ofList word)

/-- The renames that the words of a list say, each by a new label and an old one. -/
def renamesOf : List String → List Rename
  | new :: old :: words => ⟨old, new⟩ :: renamesOf words
  | _ => []

/-- A word ends, and is an operand. -/
def flush (r : TermReader) : TermReader :=
  if r.word = [] then r else { r with frame := { r.frame with operand := operandOf r.word }, word := [] }

/-- A word ends, and is one of a list. -/
def collect (r : TermReader) : TermReader :=
  if r.word = [] then r else { r with words := r.words ++ [String.ofList r.word], word := [] }

/-- A pair of parentheses ends, and what was read inside is an operand. -/
def leave (r : TermReader) : TermReader :=
  match r.outer with
  | [] => r
  | f :: outer => { r with outer, frame := { f with operand := (r.frame.close 0).operand } }

/-- The characters of words. A quote stands before the label of an output. -/
def inWord (c : Char) : Bool :=
  Text.isWordChar c || c == '\x27'

/-- Goes on by one character. -/
def step (r : TermReader) (c : Char) : TermReader :=
  if inWord c then { r with word := r.word ++ [c] }
  else match c with
    | '.' => { r with frame := { r.frame with prefixes := actionOf r.word :: r.frame.prefixes }, word := [] }
    | '(' => { r with outer := r.frame :: r.outer, frame := {} }
    | ')' => r.flush.leave
    | '+' => { r with frame := { summands := some (r.frame.close 0).operand } }
    | '|' => { r with frame := { summands := r.frame.summands, sides := some (r.frame.close 1).operand } }
    | ' ' | '[' => r.flush
    | ',' | '/' => r.collect
    | '\x7d' =>
      let r := r.collect
      { r with frame := { r.frame with operand := .restrict r.frame.operand (.ofList r.words) }, words := [] }
    | ']' =>
      let r := r.collect
      { r with
        frame := { r.frame with operand := .rename r.frame.operand (.ofList (renamesOf r.words)) }
        words := [] }
    | _ => r

/-- Goes on by a text. -/
def scan (r : TermReader) (text : String) : TermReader :=
  text.toList.foldl step r

/-- The term that a text says. -/
def read (text : String) : Term :=
  ((({} : TermReader).scan text).flush.frame.close 0).operand

variable {r : TermReader}

theorem scan_append (r : TermReader) (s t : String) : r.scan (s ++ t) = (r.scan s).scan t := by
  rw [scan, String.toList_append, List.foldl_append]
  rfl

theorem step_of_inWord {c : Char} (hc : inWord c) :
    r.step c = { r with word := r.word ++ [c] } :=
  if_pos hc

/-- Words are read as they are. -/
theorem scan_word {word : String} (h : ∀ c ∈ word.toList, inWord c) :
    r.scan word = { r with word := r.word ++ word.toList } := by
  unfold scan
  generalize word.toList = cs at h
  induction cs generalizing r with
  | nil => rw [List.foldl_nil, List.append_nil]
  | cons c cs ih =>
    rw [List.foldl_cons, step_of_inWord (h c List.mem_cons_self), ih fun d hd => h d (List.mem_cons_of_mem c hd)]
    simp only [List.append_assoc, List.singleton_append]

/-! ### What the separators do -/

theorem flush_of_nil (h : r.word = []) : r.flush = r :=
  if_pos h

theorem collect_of_nil (h : r.word = []) : r.collect = r :=
  if_pos h

theorem word_flush (r : TermReader) : r.flush.word = [] := by
  unfold flush
  split
  · assumption
  · rfl

theorem word_collect (r : TermReader) : r.collect.word = [] := by
  unfold collect
  split
  · assumption
  · rfl

theorem scan_dot (r : TermReader) : r.scan "." =
    { r with frame := { r.frame with prefixes := actionOf r.word :: r.frame.prefixes }, word := [] } := rfl

theorem scan_open (r : TermReader) : r.scan "(" = { r with outer := r.frame :: r.outer, frame := {} } := rfl

theorem scan_close (r : TermReader) : r.scan ")" = r.flush.leave := rfl

theorem scan_plus (r : TermReader) :
    r.scan " + " = { r.flush with frame := { summands := some (r.flush.frame.close 0).operand } } :=
  flush_of_nil r.word_flush

theorem scan_bar (r : TermReader) : r.scan " | " = { r.flush with
    frame := { summands := r.flush.frame.summands, sides := some (r.flush.frame.close 1).operand } } :=
  flush_of_nil r.word_flush

theorem scan_brace (r : TermReader) : r.scan " \\ \x7b" = r.flush :=
  flush_of_nil r.word_flush

theorem scan_bracket (r : TermReader) : r.scan "[" = r.flush := rfl

theorem scan_comma (r : TermReader) : r.scan ", " = r.collect :=
  flush_of_nil r.word_collect

theorem scan_slash (r : TermReader) : r.scan "/" = r.collect := rfl

theorem scan_braceEnd (r : TermReader) : r.scan "\x7d" = { r.collect with
    frame := { r.collect.frame with operand := .restrict r.collect.frame.operand (.ofList r.collect.words) }
    words := [] } := rfl

theorem scan_bracketEnd (r : TermReader) : r.scan "]" = { r.collect with
    frame := { r.collect.frame with operand := .rename r.collect.frame.operand (.ofList (renamesOf r.collect.words)) }
    words := [] } := rfl

/-! ### Words that are read back -/

theorem exists_of_isIdentifier {s : String} (h : Text.isIdentifier s) :
    ∃ c cs, s.toList = c :: cs ∧ Text.isLetter c ∧ ∀ d ∈ cs, Text.isWordChar d := by
  unfold Text.isIdentifier at h
  split at h
  · cases h
  · rename_i c cs hs
    rw [Bool.and_eq_true, List.all_eq_true] at h
    exact ⟨c, cs, hs, h.1, h.2⟩

theorem word_ne_nil {s : String} (h : Text.isIdentifier s) : s.toList ≠ [] := by
  obtain ⟨c, cs, hs, -⟩ := exists_of_isIdentifier h
  rw [hs]
  exact List.cons_ne_nil c cs

theorem inWord_of_isIdentifier {s : String} (h : Text.isIdentifier s) : ∀ c ∈ s.toList, inWord c := by
  obtain ⟨c, cs, hs, hc, hcs⟩ := exists_of_isIdentifier h
  rw [hs]
  intro d hd
  rcases List.mem_cons.1 hd with rfl | hd
  · simp [inWord, Text.isWordChar, hc]
  · simp [inWord, hcs d hd]

/-- No identifier starts with a digit. -/
theorem isDigit_of_isLetter {c : Char} (h : Text.isLetter c) : c.isDigit = false := by
  have hletter : (decide (65 ≤ c.toNat ∧ c.toNat ≤ 90) || (decide (97 ≤ c.toNat) && decide (c.toNat ≤ 122)) ||
      decide (128 ≤ c.toNat)) = true := h
  have hdigit : c.isDigit = (decide (48 ≤ c.toNat) && decide (c.toNat ≤ 57)) := rfl
  simp only [Bool.or_eq_true, Bool.and_eq_true, decide_eq_true_eq] at hletter
  rw [hdigit, Bool.and_eq_false_iff, decide_eq_false_iff_not, decide_eq_false_iff_not]
  omega

theorem operandOf_name {s : String} (h : Text.isIdentifier s) : operandOf s.toList = .name s := by
  obtain ⟨c, cs, hs, hc, -⟩ := exists_of_isIdentifier h
  unfold operandOf
  rw [if_neg, String.ofList_toList]
  intro hzero
  rw [hs] at hzero
  cases hzero
  cases hc

theorem actionOf_visible {s : String} (h : Text.isIdentifier s) (htau : s ≠ "tau") (p : Polarity) :
    actionOf (Action.visible s p).text.toList = .visible s p := by
  obtain ⟨c, cs, hs, hc, -⟩ := exists_of_isIdentifier h
  cases p with
  | output =>
    rw [Action.text, String.toList_append]
    show Action.visible (String.ofList s.toList) .output = _
    rw [String.ofList_toList]
  | input =>
    have hquote : c ≠ '\x27' := by
      rintro rfl
      cases hc
    have hword : s.toList ≠ "tau".toList := fun heq => htau (String.toList_inj.1 heq)
    have hdigit : s.toList.all Char.isDigit = false := by
      rw [hs, List.all_cons, isDigit_of_isLetter hc, Bool.false_and]
    rw [Action.text]
    unfold actionOf
    split
    · rename_i label heq
      rw [hs] at heq
      cases heq
      exact absurd rfl hquote
    · rw [if_neg hword, hdigit, if_neg Bool.false_ne_true, String.ofList_toList]

theorem actionOf_silent : actionOf Action.silent.text.toList = .silent := rfl

theorem all_isDigit_repr (n : Nat) : n.repr.toList.all Char.isDigit = true := by
  rw [Nat.toList_repr, List.all_eq_true]
  exact fun c hc => Nat.isDigit_of_mem_toDigits (by decide) (by decide) hc

theorem actionOf_delay (d : UInt32) : actionOf (Action.delay d).text.toList = .delay d := by
  show actionOf d.toNat.repr.toList = _
  have hdigits := all_isDigit_repr d.toNat
  have hvalue : Nat.ofDigitChars 10 d.toNat.repr.toList 0 = d.toNat := by
    rw [Nat.toList_repr, Nat.ofDigitChars_ten_toDigits]
  generalize d.toNat.repr.toList = word at hdigits hvalue
  have htau : word ≠ "tau".toList := by
    rintro rfl
    cases hdigits
  unfold actionOf
  split
  · cases hdigits
  · rw [if_neg htau, if_pos hdigits, hvalue, UInt32.ofNat_toNat]

/-! ### Lists of words -/

/-- The text is read as a list of words, the last of which ends where the text ends. -/
def Lists (text : String) (words : List String) : Prop :=
  ∀ r : TermReader, r.word = [] → (r.scan text).collect = { r with words := r.words ++ words }

theorem lists_nil : Lists "" [] := by
  intro r hr
  rw [List.append_nil]
  exact collect_of_nil hr

theorem lists_word {s : String} (h : Text.isIdentifier s) : Lists s [s] := by
  intro r hr
  rw [scan_word (inWord_of_isIdentifier h), hr, List.nil_append, collect, if_neg (word_ne_nil h)]
  simp only [String.ofList_toList]

theorem Lists.append {s t : String} {ws vs : List String} (hs : Lists s ws) (ht : Lists t vs) {separator : String}
    (hsep : ∀ r : TermReader, r.scan separator = r.collect) : Lists (s ++ separator ++ t) (ws ++ vs) := by
  intro r hr
  rw [scan_append, scan_append, hsep, hs r hr, ht { r with words := r.words ++ ws } hr]
  simp only [List.append_assoc]

/-- The pieces between commas are read one after the other. -/
theorem lists_join {α : Type} {xs : List α} {piece : α → String} {words : α → List String}
    (h : ∀ x ∈ xs, Lists (piece x) (words x)) : Lists (Text.join ", " (xs.map piece)) (xs.flatMap words) := by
  induction xs with
  | nil => exact lists_nil
  | cons x rest ih =>
    have hx := h x List.mem_cons_self
    have hrest := ih fun y hy => h y (List.mem_cons_of_mem x hy)
    cases rest with
    | nil =>
      rw [List.map_singleton, Text.join, String.intercalate_singleton, List.flatMap_singleton]
      exact hx
    | cons y rest =>
      rw [List.map_cons, List.map_cons, Text.join, String.intercalate_cons_cons, List.flatMap_cons]
      exact hx.append hrest scan_comma

/-- A set is the set of its members. -/
theorem labels_ofList (labels : LabelSet) : LabelSet.ofList labels.toList = labels :=
  LabelSet.ext fun _ => LabelSet.mem_ofList

theorem renames_foldl {renames : Renaming} {rest : List Rename}
    (h : Sorted Rename.byOld (renames.renames ++ rest)) :
    (rest.foldl (fun r e => r.rename e.old e.new) renames).renames = renames.renames ++ rest := by
  induction rest generalizing renames with
  | nil => rw [List.foldl_nil, List.append_nil]
  | cons e rest ih =>
    -- the rename is a later one than those before it, so it is put at the end
    have hlater (b : Rename) (hb : b ∈ renames.renames) : Rename.byOld ⟨e.old, e.new⟩ b = .gt :=
      OrientedCmp.gt_of_lt ((List.pairwise_append.1 h).2.2 b hb e List.mem_cons_self)
    have hend : (renames.rename e.old e.new).renames = renames.renames ++ [e] := by
      have hupsert := upsert_append_of_gt (f := fun b : Rename => { b with new := e.new }) hlater []
      rwa [List.append_nil] at hupsert
    rw [List.foldl_cons, ih, hend, List.append_assoc, List.singleton_append]
    rwa [hend, List.append_assoc, List.singleton_append]

/-- A renaming is given by its renames. -/
theorem renames_ofList (renames : Renaming) : Renaming.ofList renames.renames = renames := by
  have h : (Renaming.ofList renames.renames).renames = renames.renames := renames_foldl renames.sorted
  cases renames
  rw [Renaming.mk.injEq, h]

theorem renamesOf_flatMap (renames : List Rename) :
    renamesOf (renames.flatMap fun e => [e.new, e.old]) = renames := by
  induction renames with
  | nil => rfl
  | cons e rest ih =>
    rw [List.flatMap_cons]
    show ⟨e.old, e.new⟩ :: renamesOf (rest.flatMap fun e => [e.new, e.old]) = _
    rw [ih]

end TermReader

end ProcessCalculus
