import ProcessCalculus.Proofs.Text.Scanning
import ProcessCalculus.Proofs.Text.Terms

/-!
# The written form of terms is unambiguous

The reader undoes writing, up to association. So processes with the same text are the same tree, except for how sums and
parallel compositions are nested and how time passes.

* `Term.Legible`, `Program.Legible`: names and labels are identifiers.
* `TermReader.Reads`: a text says a term, wherever it stands, with one lemma for each term former.
* `TermReader.reads_text`: the written form of a legible term says this term.
* `Program.text_eq_iff_associated`: when two processes have the same text.
-/

namespace ProcessCalculus

/-! ### Legible terms -/

/-- A label that is not taken for the silent action. -/
def Text.isLabel (s : String) : Bool :=
  isIdentifier s && s != "tau"

/-- The label of the action, if it has one, can be told from other words. -/
def Action.Legible : Action → Prop
  | .visible label _ => Text.isLabel label
  | _ => True

namespace Term

/-- All names and labels of the term are identifiers, and no label is that of the silent action. -/
def Legible : Term → Prop
  | null => True
  | name n => Text.isIdentifier n
  | sum l r | parallel l r => l.Legible ∧ r.Legible
  | act a t => a.Legible ∧ t.Legible
  | delay _ t => t.Legible
  | restrict t labels => (∀ label ∈ labels.toList, Text.isLabel label) ∧ t.Legible
  | rename t renames => (∀ e ∈ renames.renames, Text.isLabel e.new ∧ Text.isLabel e.old) ∧ t.Legible

end Term

/-- All names and labels of the term former are identifiers, and no label is that of the silent action. -/
def Node.Legible {α : Type} (node : Node α) : Prop :=
  (node.term fun _ => .null).Legible

/-- All names and labels of the program are identifiers, and no label is that of the silent action. -/
def Program.Legible (p : Program) : Prop :=
  ∀ id node, p.node? id = some node → node.Legible

namespace Program

variable {p : Program} {id : ProcessId} {t : Term}

theorem Legible.empty : (∅ : Program).Legible := by
  intro id node hnode
  simp at hnode

theorem Legible.add (h : p.Legible) {node : Node ProcessId} (hnode : node.Legible) : (p.add node).2.Legible := by
  intro id other hother
  rw [node?_add] at hother
  split at hother
  · cases hother
    exact hnode
  · exact h id other hother

theorem Legible.mention (h : p.Legible) {name : String} (hname : Text.isIdentifier name) :
    (p.mention name).2.Legible := by
  intro id node hnode
  cases hl : p.lookup? name with
  | some other =>
    rw [mention_of_known hl] at hnode
    exact h id node hnode
  | none =>
    rw [(mention_of_new hl).2.2.1] at hnode
    split at hnode
    · cases hnode
      exact hname
    · exact h id node hnode

theorem Denotes.legible (h : p.Denotes id t) (hp : p.Legible) : t.Legible := by
  induction h with
  | null => trivial
  | named h => exact hp _ _ h
  | sum _ _ _ ihl ihr | parallel _ _ _ ihl ihr => exact ⟨ihl, ihr⟩
  | act h _ ih | restrict h _ ih | rename h _ ih => exact ⟨(hp _ _ h).1, ih⟩
  | delay _ _ ih => exact ih

end Program

namespace TermReader

open Term

/-! ### Frames -/

namespace Frame

variable {f g h : Frame} {k : Nat}

/-- The frames differ at most in their operands, which are associated. -/
structure Alike (f g : Frame) : Prop where
  summands : f.summands = g.summands
  sides : f.sides = g.sides
  prefixes : f.prefixes = g.prefixes
  operand : f.operand.Associated g.operand

/-- A term that binds with the given strength may come next: it would not go on with what stands to its left. -/
def Ready (k : Nat) (f : Frame) : Prop :=
  (k ≤ 1 → f.prefixes = []) ∧ (k = 0 → f.sides = none)

theorem Ready.mono {own : Nat} (hf : f.Ready k) (hle : k ≤ own) : f.Ready own :=
  ⟨fun hown => hf.1 (Nat.le_trans hle hown), fun hown => hf.2 (Nat.le_zero.1 (hown ▸ hle))⟩

theorem Alike.refl (f : Frame) : f.Alike f :=
  ⟨rfl, rfl, rfl, .refl _⟩

theorem Alike.trans (hfg : f.Alike g) (hgh : g.Alike h) : f.Alike h :=
  ⟨hfg.summands.trans hgh.summands, hfg.sides.trans hgh.sides, hfg.prefixes.trans hgh.prefixes,
    hfg.operand.trans hgh.operand⟩

theorem alike_of_associated (f : Frame) {t u : Term} (h : t.Associated u) :
    ({ f with operand := t } : Frame).Alike { f with operand := u } :=
  ⟨rfl, rfl, rfl, h⟩

theorem foldl_associated {t u : Term} (h : t.Associated u) (as : List Action) :
    (as.foldl (fun t a => .act a t) t).Associated (as.foldl (fun t a => .act a t) u) := by
  induction as generalizing t u with
  | nil => exact h
  | cons a as ih => exact ih (h.act a)

theorem joined_associated {former : Term → Term → Term} {t u : Term}
    (hformer : ∀ s, (former s t).Associated (former s u)) (h : t.Associated u) (left : Option Term) :
    (joined former left t).Associated (joined former left u) := by
  cases left with
  | none => exact h
  | some s => exact hformer s

/-- One more operand to the right is the same as a right operand that goes on. -/
theorem joined_former {former : Term → Term → Term}
    (hassoc : ∀ s t u, (former (former s t) u).Associated (former s (former t u))) (left : Option Term) (t u : Term) :
    (former (joined former left t) u).Associated (joined former left (former t u)) := by
  cases left with
  | none => exact .refl _
  | some s => exact hassoc s t u

theorem Alike.closePrefixes (h : f.Alike g) : f.closePrefixes.Alike g.closePrefixes where
  summands := h.summands
  sides := h.sides
  prefixes := rfl
  operand := by
    show (f.prefixes.foldl _ f.operand).Associated (g.prefixes.foldl _ g.operand)
    rw [h.prefixes]
    exact foldl_associated h.operand _

theorem Alike.closeSides (h : f.Alike g) : f.closeSides.Alike g.closeSides where
  summands := h.summands
  sides := rfl
  prefixes := h.prefixes
  operand := by
    show (joined .parallel f.sides f.operand).Associated (joined .parallel g.sides g.operand)
    rw [h.sides]
    exact joined_associated (fun s => .parallel (.refl s) h.operand) h.operand g.sides

theorem Alike.closeSummands (h : f.Alike g) : f.closeSummands.Alike g.closeSummands where
  summands := rfl
  sides := h.sides
  prefixes := h.prefixes
  operand := by
    show (joined .sum f.summands f.operand).Associated (joined .sum g.summands g.operand)
    rw [h.summands]
    exact joined_associated (fun s => .sum (.refl s) h.operand) h.operand g.summands

theorem Alike.close (h : f.Alike g) (k : Nat) : (f.close k).Alike (g.close k) :=
  match k with
  | 0 => h.closePrefixes.closeSides.closeSummands
  | 1 => h.closePrefixes.closeSides
  | 2 => h.closePrefixes
  | _ + 3 => h

/-- What has been closed may be closed further. -/
theorem close_close {own : Nat} (f : Frame) (hle : k ≤ own) : (f.close own).close k = f.close k := by
  match k, own with
  | 0, 0 | 0, 1 | 0, 2 | 0, _ + 3 => rfl
  | 1, 1 | 1, 2 | 1, _ + 3 => rfl
  | 2, 2 | 2, _ + 3 => rfl
  | _ + 3, _ + 3 => rfl

end Frame

/-! ### What texts say -/

/-- The reader between two words, outside of lists. -/
abbrev between (outer : List Frame) (f : Frame) : TermReader :=
  { outer, frame := f }

/-- The text is read as the term, wherever a term may stand that binds with the given strength. -/
def Reads (text : String) (k : Nat) (t : Term) : Prop :=
  ∀ (outer : List Frame) (f : Frame), f.Ready k →
    ∃ f', ((between outer f).scan text).flush = between outer f' ∧
      (f'.close k).Alike (({ f with operand := t } : Frame).close k)

theorem Reads.congr {text : String} {k : Nat} {t u : Term} (h : Reads text k t) (htu : t.Associated u) :
    Reads text k u := by
  intro outer f hf
  obtain ⟨f', hf', halike⟩ := h outer f hf
  exact ⟨f', hf', halike.trans ((f.alike_of_associated htu).close k)⟩

/-- Parentheses do not change what is said. -/
theorem Reads.enclosed {text : String} {own : Nat} {t : Term} (h : Reads text own t) (k : Nat) :
    Reads (Term.enclosed own k text) k t := by
  intro outer f hf
  unfold Term.enclosed
  split
  · obtain ⟨f', hf', halike⟩ := h (f :: outer) {} ⟨fun _ => rfl, fun _ => rfl⟩
    have hinner := halike.close 0
    rw [Frame.close_close _ (Nat.zero_le own), Frame.close_close _ (Nat.zero_le own)] at hinner
    refine ⟨{ f with operand := (f'.close 0).operand }, ?_, (f.alike_of_associated hinner.operand).close k⟩
    rw [scan_append, scan_append, scan_open, scan_close]
    show ((between (f :: outer) {}).scan text).flush.leave.flush = _
    rw [hf']
    rfl
  · rename_i hle
    have hle := Nat.le_of_not_lt hle
    obtain ⟨f', hf', halike⟩ := h outer f (hf.mono hle)
    have hweaker := halike.close k
    rw [Frame.close_close _ hle, Frame.close_close _ hle] at hweaker
    exact ⟨f', hf', hweaker⟩

/-- A word says the term that it is read as. -/
theorem reads_word {word : String} (hne : word.toList ≠ []) (h : ∀ c ∈ word.toList, inWord c) :
    Reads word 4 (operandOf word.toList) := by
  intro outer f _
  refine ⟨{ f with operand := operandOf word.toList }, ?_, .refl _⟩
  rw [scan_word h, List.nil_append, flush, if_neg hne]

/-- A word with a dot is a prefix. -/
theorem Reads.prefixed {text word : String} {t : Term} (h : Reads text 2 t)
    (hword : ∀ c ∈ word.toList, inWord c) :
    Reads (word ++ "." ++ text) 2 (.act (actionOf word.toList) t) := by
  intro outer f _
  obtain ⟨f', hf', halike⟩ := h outer { f with prefixes := actionOf word.toList :: f.prefixes } ⟨nofun, nofun⟩
  refine ⟨f', ?_, halike⟩
  rw [scan_append, scan_append, scan_word hword, scan_dot]
  exact hf'

/-- The texts of two operands, with a plus between them, are a sum. What stands to the left is in the same sum. -/
theorem Reads.sum {left right : String} {t u : Term} (hl : Reads left 0 t) (hr : Reads right 0 u) :
    Reads (left ++ " + " ++ right) 0 (.sum t u) := by
  intro outer f hf
  obtain ⟨f₁, hf₁, hleft⟩ := hl outer f hf
  obtain ⟨f₂, hf₂, hright⟩ := hr outer { summands := some (f₁.close 0).operand } ⟨fun _ => rfl, fun _ => rfl⟩
  refine ⟨f₂, ?_, hright.trans ⟨rfl, rfl, rfl, ?_⟩⟩
  · rw [scan_append, scan_append, scan_plus, hf₁]
    exact hf₂
  · obtain ⟨summands, sides, prefixes, operand⟩ := f
    obtain rfl : prefixes = [] := hf.1 (Nat.zero_le 1)
    obtain rfl : sides = none := hf.2 rfl
    have hfirst : (f₁.close 0).operand.Associated (Frame.joined .sum summands t) := hleft.operand
    exact (Associated.sum hfirst (.refl u)).trans (Frame.joined_former .sumAssoc summands t u)

/-- The same for parallel compositions. The sum to the left is not touched. -/
theorem Reads.parallel {left right : String} {t u : Term} (hl : Reads left 1 t) (hr : Reads right 1 u) :
    Reads (left ++ " | " ++ right) 1 (.parallel t u) := by
  intro outer f hf
  obtain ⟨f₁, hf₁, hleft⟩ := hl outer f hf
  obtain ⟨f₂, hf₂, hright⟩ :=
    hr outer { summands := f₁.summands, sides := some (f₁.close 1).operand } ⟨fun _ => rfl, nofun⟩
  refine ⟨f₂, ?_, hright.trans ⟨hleft.summands, rfl, rfl, ?_⟩⟩
  · rw [scan_append, scan_append, scan_bar, hf₁]
    exact hf₂
  · obtain ⟨summands, sides, prefixes, operand⟩ := f
    obtain rfl : prefixes = [] := hf.1 (Nat.le_refl 1)
    have hfirst : (f₁.close 1).operand.Associated (Frame.joined .parallel sides t) := hleft.operand
    exact (Associated.parallel hfirst (.refl u)).trans (Frame.joined_former .parallelAssoc sides t u)

/-- A list of labels in braces is a restriction of the operand before it. -/
theorem Reads.restricted {text list : String} {labels : LabelSet} {t : Term} (h : Reads text 3 t)
    (hlist : Lists list labels.toList) : Reads (text ++ " \\ \x7b" ++ list ++ "\x7d") 3 (.restrict t labels) := by
  intro outer f hf
  obtain ⟨f', hf', halike⟩ := h outer f hf
  refine ⟨{ f' with operand := .restrict f'.operand labels }, ?_,
    ⟨halike.summands, halike.sides, halike.prefixes, halike.operand.restrict labels⟩⟩
  rw [scan_append, scan_append, scan_append, scan_brace, hf', scan_braceEnd, hlist _ rfl]
  simp only [List.nil_append, labels_ofList]
  rfl

/-- A list of renames in brackets is a renaming of the operand before it. -/
theorem Reads.renamed {text list : String} {renames : Renaming} {t : Term} (h : Reads text 3 t)
    (hlist : Lists list (renames.renames.flatMap fun e => [e.new, e.old])) :
    Reads (text ++ ("[" ++ list ++ "]")) 3 (.rename t renames) := by
  intro outer f hf
  obtain ⟨f', hf', halike⟩ := h outer f hf
  refine ⟨{ f' with operand := .rename f'.operand renames }, ?_,
    ⟨halike.summands, halike.sides, halike.prefixes, halike.operand.rename renames⟩⟩
  rw [scan_append, scan_append, scan_append, scan_bracket, hf', scan_bracketEnd, hlist _ rfl]
  simp only [List.nil_append, renamesOf_flatMap, renames_ofList]
  rfl

/-! ### The written form is read back -/

theorem isIdentifier_of_isLabel {s : String} (h : Text.isLabel s) : Text.isIdentifier s := by
  rw [Text.isLabel, Bool.and_eq_true] at h
  exact h.1

theorem ne_tau_of_isLabel {s : String} (h : Text.isLabel s) : s ≠ "tau" := by
  rw [Text.isLabel, Bool.and_eq_true, bne_iff_ne] at h
  exact h.2

/-- The text of an action is one word, that says this action. -/
theorem actionOf_text {a : Action} (ha : a.Legible) : actionOf a.text.toList = a ∧
    ∀ c ∈ a.text.toList, inWord c := by
  cases a with
  | silent => exact ⟨actionOf_silent, List.all_eq_true.1 (by decide)⟩
  | visible label p =>
    have hlabel : Text.isLabel label := ha
    have hid := isIdentifier_of_isLabel hlabel
    refine ⟨actionOf_visible hid (ne_tau_of_isLabel hlabel) p, ?_⟩
    have hchars := inWord_of_isIdentifier hid
    cases p with
    | input => exact hchars
    | output =>
      rw [Action.text, String.toList_append]
      intro c hc
      rcases List.mem_append.1 hc with hc | hc
      · rw [List.mem_singleton.1 hc]
        rfl
      · exact hchars c hc
  | delay d =>
    refine ⟨actionOf_delay d, fun c hc => ?_⟩
    have hdigit := List.all_eq_true.1 (all_isDigit_repr d.toNat) c hc
    simp [inWord, Text.isWordChar, hdigit]

theorem lists_labels {labels : LabelSet} (h : ∀ label ∈ labels.toList, Text.isLabel label) :
    Lists (Text.join ", " labels.toList) labels.toList := by
  have hlist : Lists (Text.join ", " (labels.toList.map fun s => s)) (labels.toList.flatMap fun s => [s]) :=
    lists_join fun s hs => lists_word (isIdentifier_of_isLabel (h s hs))
  rwa [List.flatMap_singleton', List.map_id'] at hlist

theorem lists_renames {renames : List Rename} (h : ∀ e ∈ renames, Text.isLabel e.new ∧ Text.isLabel e.old) :
    Lists (Text.join ", " (renames.map fun e => e.new ++ "/" ++ e.old)) (renames.flatMap fun e => [e.new, e.old]) :=
  lists_join fun e he => (lists_word (isIdentifier_of_isLabel (h e he).1)).append
    (lists_word (isIdentifier_of_isLabel (h e he).2)) scan_slash

/-- The written form of a legible term says this term, up to association. By induction on the term: what is said of
the plain form of a subterm holds of its form in parentheses, if it has any. -/
theorem reads_plainText {t : Term} (h : t.Legible) : Reads t.plainText t.strength t := by
  induction t with
  | null => exact reads_word (by decide) (List.all_eq_true.1 (by decide))
  | name n =>
    have hword := reads_word (word_ne_nil h) (inWord_of_isIdentifier h)
    rwa [operandOf_name h] at hword
  | sum l r ihl ihr => exact ((ihl h.1).enclosed 0).sum ((ihr h.2).enclosed 0)
  | parallel l r ihl ihr => exact ((ihl h.1).enclosed 1).parallel ((ihr h.2).enclosed 1)
  | act a t ih =>
    obtain ⟨haction, hword⟩ := actionOf_text h.1
    have hread := ((ih h.2).enclosed 2).prefixed hword
    rwa [haction] at hread
  | delay d t ih =>
    obtain ⟨haction, hword⟩ := actionOf_text (a := .delay d) trivial
    have hread := ((ih h).enclosed 2).prefixed hword
    rw [haction] at hread
    exact hread.congr (.delayed d t)
  | restrict t labels ih => exact ((ih h.2).enclosed 3).restricted (lists_labels h.1)
  | rename t renames ih => exact ((ih h.2).enclosed 3).renamed (lists_renames h.1)

/-- A reader gets a legible term back from its text, up to association. -/
theorem read_text {t : Term} (h : t.Legible) : (read (t.text 0)).Associated t := by
  obtain ⟨f, hf, halike⟩ := (reads_plainText h).enclosed 0 [] {} ⟨fun _ => rfl, fun _ => rfl⟩
  show Term.Associated (((between [] {}).scan (t.text 0)).flush.frame.close 0).operand t
  rw [text, hf]
  exact halike.operand

example : read "(a.P | 'b.0) \\ \x7ba, b\x7d" = .restrict (.parallel (.act (.visible "a" .input) (.name "P"))
    (.act (.visible "b" .output) .null)) (.ofList ["a", "b"]) := by
  decide +kernel

end TermReader

/-- Legible terms are written alike exactly if they are equal up to association. -/
theorem Term.text_eq_iff {t u : Term} (ht : t.Legible) (hu : u.Legible) : t.text 0 = u.text 0 ↔ t.Associated u := by
  refine ⟨fun h => ?_, fun h => h.text_eq 0⟩
  have hread := TermReader.read_text ht
  rw [h] at hread
  exact hread.symm.trans (TermReader.read_text hu)

namespace Program

/-- In programs that are built with identifiers for names and labels, two processes have the same text exactly if the
trees that they denote are equal up to association. -/
theorem text_eq_iff_associated {p q : Program} (hp : Built p) (hq : Built q) (hpl : p.Legible) (hql : q.Legible)
    {id id' : ProcessId} (hid : id < p.size) (hid' : id' < q.size) :
    ∃ t u, p.Denotes id t ∧ q.Denotes id' u ∧ (p.text id = q.text id' ↔ t.Associated u) := by
  obtain ⟨r, rfl, hr⟩ := hp.exists_reading Term.Reordered.refl
  obtain ⟨r', rfl, hr'⟩ := hq.exists_reading Term.Reordered.refl
  obtain ⟨t, ht, htext⟩ := hr.exists_text Term.Reordered.precongruence hid
  obtain ⟨u, hu, htext'⟩ := hr'.exists_text Term.Reordered.precongruence hid'
  refine ⟨t, u, ht, hu, ?_⟩
  rw [htext, htext']
  exact Term.text_eq_iff (ht.legible hpl) (hu.legible hql)

/-- The names `P`, `Q` and `R`, the sums `(P + Q) + R` and `P + (Q + R)`, and a delay before each of them: once as an
action, once as a delay. -/
private def twoSums : Program :=
  let p := (Program.mention ∅ "P").2
  let p := (p.mention "Q").2
  let p := (p.mention "R").2
  let p := (p.add (.sum 0 1)).2
  let p := (p.add (.sum 3 2)).2
  let p := (p.add (.sum 1 2)).2
  let p := (p.add (.sum 0 5)).2
  let p := (p.add (.act (.delay 2) 4)).2
  (p.add (.delay 2 6)).2

private theorem built_twoSums : Built twoSums :=
  ((((((((Relation.ReflTransGen.refl.tail (.mention ∅ "P")).tail (.mention _ "Q")).tail (.mention _ "R")).tail
    (.add rfl (by decide))).tail (.add rfl (by decide))).tail (.add rfl (by decide))).tail
    (.add rfl (by decide))).tail (.add rfl (by decide))).tail (.add rfl (by decide))

private theorem legible_twoSums : twoSums.Legible := by
  have hnames : (((Program.mention ∅ "P").2.mention "Q").2.mention "R").2.Legible :=
    ((Legible.empty.mention (by decide)).mention (by decide)).mention (by decide)
  refine .add (.add (.add (.add (.add (.add hnames ?_) ?_) ?_) ?_) ?_) ?_
  all_goals simp [Node.Legible, Node.term, Term.Legible, Action.Legible]

/-- Both terms with a delay before them are written alike, and they are equal up to association. -/
theorem text_eq_iff_associated_twoSums :
    twoSums.text 7 = "2.(P + Q + R)" ∧ twoSums.text 8 = "2.(P + Q + R)" ∧
      Term.Associated (.act (.delay 2) (.sum (.sum (.name "P") (.name "Q")) (.name "R")))
        (.delay 2 (.sum (.name "P") (.sum (.name "Q") (.name "R")))) := by
  have htext : twoSums.text 7 = "2.(P + Q + R)" := by decide +kernel
  have htext' : twoSums.text 8 = "2.(P + Q + R)" := by decide +kernel
  obtain ⟨t, u, ht, hu, hiff⟩ := text_eq_iff_associated built_twoSums built_twoSums legible_twoSums legible_twoSums
    (show 7 < twoSums.size by decide) (show 8 < twoSums.size by decide)
  obtain rfl := ht.unique (.act rfl (.sum rfl (.sum rfl (.named rfl) (.named rfl)) (.named rfl)))
  obtain rfl := hu.unique (.delay rfl (.sum rfl (.named rfl) (.sum rfl (.named rfl) (.named rfl))))
  exact ⟨htext, htext', hiff.1 (htext.trans htext'.symm)⟩

end Program

end ProcessCalculus
