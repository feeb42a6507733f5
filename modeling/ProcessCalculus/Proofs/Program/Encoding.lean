import Mathlib.Algebra.Group.Nat.Defs
import ProcessCalculus.Program.Digest

/-!
# Encodings for digests

The bytes that are hashed for nodes and programs can be read back: different nodes and different programs have
different ones. Texts come after their lengths, so that lists of them need no separators. Digests all have the same
length, so that they can be taken off at the end. The domain that comes first tells what the rest is about.

* `Bytes.Unambiguous`: encodings that can be put one after the other.
* `Digest.frame_inj`: the bytes of a payload in a domain.
* `Digest.message`, `Digest.message_eq_iff`: the bytes of a node.
* `Digest.programMessage`, `Digest.programMessage_inj`: the bytes of a program.
* `Digest.message_ne_programMessage`: no node is taken for a program.
-/

namespace ProcessCalculus

namespace Bytes

theorem ofBigEndian_bigEndian (n x : Nat) : ofBigEndian (bigEndian n x) = x % 256 ^ n := by
  induction n generalizing x with
  | zero => exact (Nat.mod_one x).symm
  | succ n ih => rw [ofBigEndian_bigEndian_succ, ih, Nat.pow_succ', Nat.mod_mul, Nat.add_comm]

/-- A number is determined by enough of its bytes. -/
theorem littleEndian_inj {n x y : Nat} (hx : x < 256 ^ n) (hy : y < 256 ^ n)
    (h : littleEndian n x = littleEndian n y) : x = y := by
  have hbig := congrArg (ofBigEndian ∘ List.reverse) h
  change ofBigEndian (bigEndian n x) = ofBigEndian (bigEndian n y) at hbig
  rwa [ofBigEndian_bigEndian, ofBigEndian_bigEndian, Nat.mod_eq_of_lt hx, Nat.mod_eq_of_lt hy] at hbig

private theorem toList_loop (b : ByteArray) (i : Nat) (l : List UInt8) :
    ByteArray.toList.loop b i l = l.reverse ++ b.data.toList.drop i := by
  induction i, l using ByteArray.toList.loop.induct b with
  | case1 i l hi ih =>
    have hi' : i < b.data.toList.length := hi
    have hget : b.get! i = b.data.toList[i] := by
      show b.data[i]! = _
      rw [getElem!_pos b.data i hi, Array.getElem_toList]
    rw [ByteArray.toList.loop, if_pos hi, ih, List.reverse_cons, List.append_assoc, List.drop_eq_getElem_cons hi', hget,
      List.singleton_append]
  | case2 i l hi =>
    rw [ByteArray.toList.loop, if_neg hi, List.drop_eq_nil_of_le (by simpa using hi), List.append_nil]

theorem toList_eq (b : ByteArray) : b.toList = b.data.toList :=
  toList_loop b 0 []

theorem length_toUTF8 (s : String) : s.toUTF8.toList.length = s.toUTF8.size := by
  rw [toList_eq]
  rfl

theorem toUTF8_inj {s s' : String} (h : s.toUTF8.toList = s'.toUTF8.toList) : s = s' := by
  rw [toList_eq, toList_eq, Array.toList_inj] at h
  exact String.toByteArray_inj.1 (ByteArray.ext h)

/-- What stands before and after the first occurrence of a byte. -/
theorem append_cons_inj {c : UInt8} {l l' r r' : List UInt8} (hl : c ∉ l) (hl' : c ∉ l')
    (h : l ++ c :: r = l' ++ c :: r') : l = l' ∧ r = r' := by
  induction l generalizing l' with
  | nil =>
    cases l' with
    | nil => exact ⟨rfl, (List.cons.inj h).2⟩
    | cons b l' => exact absurd ((List.cons.inj h).1 ▸ List.mem_cons_self) hl'
  | cons a l ih =>
    cases l' with
    | nil => exact absurd ((List.cons.inj h).1 ▸ List.mem_cons_self) hl
    | cons b l' =>
      obtain ⟨hab, h⟩ := List.cons.inj h
      obtain ⟨rfl, hr⟩ := ih (fun hc => hl (List.mem_cons_of_mem _ hc)) (fun hc => hl' (List.mem_cons_of_mem _ hc)) h
      exact ⟨by rw [hab], hr⟩

variable {α : Type} {P : α → Prop} {f : α → List UInt8}

/-- The encodings of values that satisfy `P` are told apart, whatever follows them: none is the beginning of another. -/
def Unambiguous (P : α → Prop) (f : α → List UInt8) : Prop :=
  ∀ ⦃a b l l'⦄, P a → P b → f a ++ l = f b ++ l' → a = b ∧ l = l'

theorem Unambiguous.inj (h : Unambiguous P f) {a b : α} (ha : P a) (hb : P b) (hab : f a = f b) : a = b :=
  (h ha hb (congrArg (· ++ []) hab)).1

/-- Such encodings can be put one after the other. -/
theorem Unambiguous.flatMap_inj (h : Unambiguous P f) (hne : ∀ a, f a ≠ []) {l l' : List α} (hl : ∀ a ∈ l, P a)
    (hl' : ∀ a ∈ l', P a) (heq : l.flatMap f = l'.flatMap f) : l = l' := by
  induction l generalizing l' with
  | nil =>
    cases l' with
    | nil => rfl
    | cons b l' => exact absurd (List.append_eq_nil_iff.1 heq.symm).1 (hne b)
  | cons a l ih =>
    cases l' with
    | nil => exact absurd (List.append_eq_nil_iff.1 heq).1 (hne a)
    | cons b l' =>
      obtain ⟨rfl, hrest⟩ := h (hl a List.mem_cons_self) (hl' b List.mem_cons_self) heq
      rw [ih (fun x hx => hl x (List.mem_cons_of_mem _ hx)) (fun x hx => hl' x (List.mem_cons_of_mem _ hx)) hrest]

theorem length_le_flatMap {l : List α} {a : α} (ha : a ∈ l) : (f a).length ≤ (l.flatMap f).length :=
  (List.sublist_flatten_of_mem (List.mem_map_of_mem ha)).length_le

end Bytes

namespace Digest

open Bytes

/-- The bytes that are hashed for a payload in a domain. -/
def frame (domain payload : List UInt8) : List UInt8 :=
  "CCS:".toUTF8.toList ++ domain ++ ":v1".toUTF8.toList ++ littleEndian 8 payload.length ++ payload

/-- The bytes that are hashed for a node. -/
def message (node : Node Digest) : List UInt8 :=
  frame (domain node).toUTF8.toList (payload node)

/-- The digest of a definition after a mark, or the mark that there is none. -/
def ofBody : Option Digest → List UInt8
  | some d => 1 :: d.bytes.toList
  | none => [0]

/-- What a program has to say of a name: the digest of its definition, if there is one. -/
def ofEntry (e : String × Option Digest) : List UInt8 :=
  ofText e.1 ++ ofBody e.2

/-- The bytes that are hashed for a program. -/
def programMessage (entries : List (String × Option Digest)) : List UInt8 :=
  frame "PROGRAM".toUTF8.toList (entries.flatMap ofEntry)

theorem ofNode_eq (hash : HashFunction) (node : Node Digest) : hash.ofNode node = ⟨hash (message node)⟩ := rfl

section Frame

variable {domain domain' payload payload' : List UInt8}

theorem length_frame : payload.length ≤ (frame domain payload).length := by
  simp only [frame, List.length_append]
  omega

/-- No domain contains the colon that ends it. -/
theorem frame_inj (hd : 58 ∉ domain) (hd' : 58 ∉ domain') (h : frame domain payload = frame domain' payload') :
    domain = domain' ∧ payload = payload' := by
  have hversion : ":v1".toUTF8.toList = 58 :: [118, 49] := by decide +kernel
  simp only [frame, hversion, List.append_assoc, List.cons_append, List.nil_append] at h
  obtain ⟨hdomain, hrest⟩ := append_cons_inj hd hd' (List.append_cancel_left h)
  have hlengths : (littleEndian 8 payload.length).length = (littleEndian 8 payload'.length).length := by simp
  exact ⟨hdomain, (List.append_inj (List.cons.inj (List.cons.inj hrest).2).2 hlengths).2⟩

end Frame

/-! ### Parts of payloads -/

theorem bytes_inj {d d' : Digest} (h : d.bytes.toList = d'.bytes.toList) : d = d' := by
  cases d
  cases d'
  cases Vector.toList_inj.1 h
  rfl

/-- The length of the text in bytes is a number of 64 bits. -/
def Sized (s : String) : Prop :=
  s.toUTF8.size < 2 ^ 64

theorem length_ofText (s : String) : (ofText s).length = 8 + s.toUTF8.size := by
  rw [ofText, List.length_append, length_littleEndian, length_toUTF8]

theorem ofText_ne_nil (s : String) : ofText s ≠ [] := by
  intro h
  have hlength := length_ofText s
  rw [h, List.length_nil] at hlength
  omega

theorem sized_of_length {s : String} (h : (ofText s).length < 2 ^ 64) : Sized s := by
  rw [length_ofText] at h
  unfold Sized
  omega

theorem sized_of_tail {s : String} {b : UInt8} (h : (b :: ofText s).length < 2 ^ 64) : Sized s :=
  sized_of_length (Nat.lt_of_succ_lt h)

theorem unambiguous_ofText : Unambiguous Sized ofText := by
  intro s s' l l' hs hs' h
  simp only [ofText, List.append_assoc] at h
  obtain ⟨hsize, h⟩ := List.append_inj h (by simp)
  have hsize : s.toUTF8.size = s'.toUTF8.size := littleEndian_inj hs hs' hsize
  obtain ⟨htext, hl⟩ := List.append_inj h (by rw [length_toUTF8, length_toUTF8, hsize])
  exact ⟨toUTF8_inj htext, hl⟩

theorem unambiguous_ofRename : Unambiguous (fun e : Rename => Sized e.old ∧ Sized e.new)
    fun e => ofText e.old ++ ofText e.new := by
  intro e e' l l' he he' h
  simp only [List.append_assoc] at h
  obtain ⟨hold, h⟩ := unambiguous_ofText he.1 he'.1 h
  obtain ⟨hnew, hl⟩ := unambiguous_ofText he.2 he'.2 h
  cases e
  cases e'
  cases hold
  cases hnew
  exact ⟨rfl, hl⟩

theorem unambiguous_ofBody : Unambiguous (fun _ => True) ofBody := by
  intro d d' l l' _ _ h
  cases d with
  | none =>
    cases d' with
    | none => exact ⟨rfl, (List.cons.inj h).2⟩
    | some d' => cases (List.cons.inj h).1
  | some d =>
    cases d' with
    | none => cases (List.cons.inj h).1
    | some d' =>
      obtain ⟨hd, hl⟩ := List.append_inj (List.cons.inj h).2 (by simp)
      exact ⟨congrArg some (bytes_inj hd), hl⟩

theorem unambiguous_ofEntry : Unambiguous (fun e : String × Option Digest => Sized e.1) ofEntry := by
  rintro ⟨s, d⟩ ⟨s', d'⟩ l l' hs hs' h
  simp only [ofEntry, List.append_assoc] at h
  obtain ⟨rfl, hrest⟩ := unambiguous_ofText hs hs' h
  obtain ⟨rfl, hl⟩ := unambiguous_ofBody trivial trivial hrest
  exact ⟨rfl, hl⟩

theorem ofAction_inj {a a' : Action} (hlt : (ofAction a).length < 2 ^ 64) (h : ofAction a = ofAction a') : a = a' := by
  have hlt' : (ofAction a').length < 2 ^ 64 := h ▸ hlt
  -- the first byte tells the kind of the action
  rcases a with _ | ⟨label, _ | _⟩ | d <;> rcases a' with _ | ⟨label', _ | _⟩ | d' <;> try cases (List.cons.inj h).1
  · rfl
  · rw [unambiguous_ofText.inj (sized_of_tail hlt) (sized_of_tail hlt') (List.cons.inj h).2]
  · rw [unambiguous_ofText.inj (sized_of_tail hlt) (sized_of_tail hlt') (List.cons.inj h).2]
  · rw [UInt32.toNat_inj.1 (littleEndian_inj d.toNat_lt d'.toNat_lt (List.cons.inj h).2)]

theorem ofLabels_inj {labels labels' : LabelSet} (hlt : (labels.toList.flatMap ofText).length < 2 ^ 64)
    (h : labels.toList.flatMap ofText = labels'.toList.flatMap ofText) : labels = labels' := by
  have hsized {labels : LabelSet} (hlt : (labels.toList.flatMap ofText).length < 2 ^ 64) (s : String)
      (hs : s ∈ labels.toList) : Sized s :=
    sized_of_length (Nat.lt_of_le_of_lt (length_le_flatMap hs) hlt)
  have hlists := unambiguous_ofText.flatMap_inj ofText_ne_nil (hsized hlt) (hsized (h ▸ hlt)) h
  exact LabelSet.ext fun s => by rw [LabelSet.mem_def, LabelSet.mem_def, hlists]

theorem ofRenames_inj {f f' : Renaming}
    (hlt : (f.renames.flatMap fun e => ofText e.old ++ ofText e.new).length < 2 ^ 64)
    (h : f.renames.flatMap (fun e => ofText e.old ++ ofText e.new) =
      f'.renames.flatMap fun e => ofText e.old ++ ofText e.new) : f = f' := by
  have hsized {f : Renaming} (hlt : (f.renames.flatMap fun e => ofText e.old ++ ofText e.new).length < 2 ^ 64)
      (e : Rename) (he : e ∈ f.renames) : Sized e.old ∧ Sized e.new := by
    have hle := length_le_flatMap (f := fun e : Rename => ofText e.old ++ ofText e.new) he
    simp only [List.length_append] at hle
    exact ⟨sized_of_length (by omega), sized_of_length (by omega)⟩
  have hlists := unambiguous_ofRename.flatMap_inj (fun e => by simp [ofText_ne_nil]) (hsized hlt) (hsized (h ▸ hlt)) h
  cases f
  cases f'
  cases hlists
  rfl

/-- A digest at the end can be taken off. -/
theorem append_bytes_inj {l l' : List UInt8} {d d' : Digest} (h : l ++ d.bytes.toList = l' ++ d'.bytes.toList) :
    l = l' ∧ d = d' := by
  obtain ⟨hl, hd⟩ := List.append_inj' h (by simp)
  exact ⟨hl, bytes_inj hd⟩

/-! ### Messages -/

/-- What is hashed of a node: all but the definition behind a name. -/
def content : Node Digest → Node Digest
  | .named name _ => .named name none
  | node => node

theorem payload_inj {n n' : Node Digest} (hlt : (payload n).length < 2 ^ 64) (hd : domain n = domain n')
    (hp : payload n = payload n') : content n = content n' := by
  cases n with
  | null =>
    cases n' with
    | null => rfl
    | _ => simp [domain] at hd
  | named name body =>
    cases n' with
    | named name' body' =>
      have hp : ofText name = ofText name' := hp
      have hlt' : (ofText name').length < 2 ^ 64 := hp ▸ hlt
      obtain rfl := unambiguous_ofText.inj (sized_of_length hlt) (sized_of_length hlt') hp
      rfl
    | _ => simp [domain] at hd
  | sum l r =>
    cases n' with
    | sum l' r' =>
      obtain ⟨hl, rfl⟩ := append_bytes_inj hp
      rw [bytes_inj hl]
    | _ => simp [domain] at hd
  | parallel l r =>
    cases n' with
    | parallel l' r' =>
      obtain ⟨hl, rfl⟩ := append_bytes_inj hp
      rw [bytes_inj hl]
    | _ => simp [domain] at hd
  | act a p =>
    cases n' with
    | act a' p' =>
      obtain ⟨ha, rfl⟩ := append_bytes_inj hp
      simp only [payload, List.length_append] at hlt
      rw [ofAction_inj (by omega) ha]
    | _ => simp [domain] at hd
  | restrict p labels =>
    cases n' with
    | restrict p' labels' =>
      obtain ⟨hl, rfl⟩ := append_bytes_inj hp
      obtain ⟨-, hl⟩ := List.append_inj hl (by simp)
      simp only [payload, List.length_append] at hlt
      rw [ofLabels_inj (by omega) hl]
    | _ => simp [domain] at hd
  | rename p renames =>
    cases n' with
    | rename p' renames' =>
      obtain ⟨hr, rfl⟩ := append_bytes_inj hp
      simp only [payload, List.length_append] at hlt
      rw [ofRenames_inj (by omega) hr]
    | _ => simp [domain] at hd
  | delay d p =>
    cases n' with
    | delay d' p' =>
      obtain ⟨hdelay, rfl⟩ := append_bytes_inj hp
      rw [UInt32.toNat_inj.1 (littleEndian_inj d.toNat_lt d'.toNat_lt hdelay)]
    | _ => simp [domain] at hd

theorem colon_not_mem_domain (n : Node Digest) : 58 ∉ (domain n).toUTF8.toList := by
  cases n <;> simp only [domain] <;> decide +kernel

theorem payload_content (n : Node Digest) : payload (content n) = payload n := by
  cases n <;> rfl

theorem domain_content (n : Node Digest) : domain (content n) = domain n := by
  cases n <;> rfl

/-- The bytes that are hashed for nodes are as different as the nodes. -/
theorem message_eq_iff {n n' : Node Digest} (hlt : (message n).length < 2 ^ 64) :
    message n = message n' ↔ content n = content n' := by
  constructor
  · intro h
    obtain ⟨hd, hp⟩ := frame_inj (colon_not_mem_domain n) (colon_not_mem_domain n') h
    exact payload_inj (Nat.lt_of_le_of_lt length_frame hlt) (toUTF8_inj hd) hp
  · intro h
    rw [message, message, ← payload_content, ← domain_content, h, payload_content, domain_content]

/-- The bytes that are hashed for programs are as different as what the programs say of names. -/
theorem programMessage_inj {l l' : List (String × Option Digest)} (hlt : (programMessage l).length < 2 ^ 64)
    (h : programMessage l = programMessage l') : l = l' := by
  have hcolon : (58 : UInt8) ∉ "PROGRAM".toUTF8.toList := by decide +kernel
  obtain ⟨-, hp⟩ := frame_inj hcolon hcolon h
  have hsized {l : List (String × Option Digest)} (hlt : (l.flatMap ofEntry).length < 2 ^ 64)
      (e : String × Option Digest) (he : e ∈ l) : Sized e.1 := by
    have hle := length_le_flatMap (f := ofEntry) he
    rw [ofEntry, List.length_append] at hle
    exact sized_of_length (by omega)
  have hlt : (l.flatMap ofEntry).length < 2 ^ 64 := Nat.lt_of_le_of_lt length_frame hlt
  refine unambiguous_ofEntry.flatMap_inj (fun e => ?_) (hsized hlt) (hsized (hp ▸ hlt)) hp
  simp [ofEntry, ofText_ne_nil]

theorem message_ne_programMessage (n : Node Digest) (l : List (String × Option Digest)) :
    message n ≠ programMessage l := by
  intro h
  obtain ⟨hd, -⟩ := frame_inj (colon_not_mem_domain n) (by decide +kernel) h
  have hd := toUTF8_inj hd
  cases n <;> simp [domain] at hd

end Digest

end ProcessCalculus
