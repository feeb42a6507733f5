import ProcessCalculus.Cbor.Reader
import ProcessCalculus.Proofs.Program.Encoding

/-!
# Reading what was written

Items are read back from their bytes, whatever follows these: the head says how long the rest is, so no item is the
beginning of another.

* `Reader.Reads`: a reader takes given bytes off the front, and makes a given value of them.
* `head_reads`: heads of all widths are read back.
* `Item.Fits`: items that are not nested too deep, with lengths and numbers of 64 bits.
* `Item.Fits.reads`, `Item.parse?_write`: such items are read back.
-/

namespace ProcessCalculus.Cbor

namespace Reader

variable {α β : Type} {read : Reader α} {next : α → Reader β} {l l' : List UInt8} {a : α} {b : β}

theorem bind_apply (read : Reader α) (next : α → Reader β) (input : List UInt8) :
    (read >>= next) input = (read input).bind fun p => next p.1 p.2 := rfl

/-- The reader takes the bytes off the front, whatever follows them, and makes the value of them. -/
def Reads (read : Reader α) (bytes : List UInt8) (a : α) : Prop :=
  ∀ rest, read (bytes ++ rest) = some (a, rest)

namespace Reads

theorem pure (a : α) : Reads (pure a) [] a :=
  fun _ => rfl

theorem bind (h : Reads read l a) (h' : Reads (next a) l' b) : Reads (read >>= next) (l ++ l') b := by
  intro rest
  rw [bind_apply, List.append_assoc, h, Option.bind_some, h']

theorem map (f : α → β) (h : Reads read l a) : Reads (f <$> read) l (f a) := by
  rw [← bind_pure_comp, ← List.append_nil l]
  exact h.bind (pure (f a))

theorem seq {f : Reader (α → β)} {g : α → β} (hf : Reads f l g) (h : Reads read l' a) :
    Reads (f <*> read) (l ++ l') (g a) := by
  rw [seq_eq_bind_map]
  exact hf.bind (h.map g)

theorem byte (c : UInt8) : Reads byte [c] c :=
  fun _ => rfl

theorem take (l : List UInt8) : Reads (take l.length) l l := by
  intro rest
  unfold Reader.take
  dsimp only
  rw [List.take_left, List.drop_left, if_pos rfl]

theorem number {n x : Nat} (hx : x < 256 ^ n) : Reads (number n) (Bytes.bigEndian n x) x := by
  have htake : Reads (Reader.take n) (Bytes.bigEndian n x) (Bytes.bigEndian n x) := by
    conv => enter [1]; rw [← Bytes.length_bigEndian n x]
    exact take _
  have hread := htake.map Bytes.ofBigEndian
  rwa [Bytes.ofBigEndian_bigEndian, Nat.mod_eq_of_lt hx] at hread

/-- Values that are read one after the other. -/
theorem times {write : α → List UInt8} {as : List α} (h : ∀ a ∈ as, Reads read (write a) a) :
    Reads (times read as.length) (as.flatMap write) as := by
  induction as with
  | nil => exact pure []
  | cons a as ih =>
    have hrest := ih fun x hx => h x (List.mem_cons_of_mem _ hx)
    exact (h a List.mem_cons_self).bind (hrest.map (List.cons a))

end Reads

end Reader

open Reader

section Heads

variable {major low n : Nat}

theorem initial_toNat (hmajor : major < 8) (hlow : low < 32) : (32 * major + low).toUInt8.toNat = 32 * major + low :=
  UInt8.toNat_ofNat_of_lt' (show 32 * major + low < 256 by omega)

/-- A head is an initial byte, with the major type and low bits, and what the low bits announce. One byte is enough
exactly for small numbers. -/
theorem head_reads (hn : n < 2 ^ 64) :
    ∃ low, low < 32 ∧ (low < 24 ↔ n < 24) ∧
      ∃ tail, (∀ major, head major n = (32 * major + low).toUInt8 :: tail) ∧
        Reads (Argument.read low) tail (.number n) := by
  unfold head
  split
  · rename_i hsmall
    refine ⟨n, by omega, Iff.rfl, [], fun _ => rfl, ?_⟩
    have hread : Argument.read n = pure (.number n) := by
      unfold Argument.read
      split <;> first | omega | rw [if_pos hsmall]
    rw [hread]
    exact Reads.pure _
  · split
    · exact ⟨24, by omega, by omega, _, fun _ => rfl, (Reads.number (by omega)).map Argument.number⟩
    · split
      · exact ⟨25, by omega, by omega, _, fun _ => rfl, (Reads.number (by omega)).map Argument.number⟩
      · split
        · exact ⟨26, by omega, by omega, _, fun _ => rfl, (Reads.number (by omega)).map Argument.number⟩
        · exact ⟨27, by omega, by omega, _, fun _ => rfl, (Reads.number (by omega)).map Argument.number⟩

end Heads

namespace Item

/-- Items that can be written and are read back when containers may be nested that deep: the lengths and numbers in
heads have 64 bits, and a map is compact if its head has one byte. -/
inductive Fits : Nat → Item → Prop
  | unsigned {depth n : Nat} (hn : n < 2 ^ 64) : Fits depth (.unsigned n)
  | negative {depth n : Nat} (hn : n < 2 ^ 64) : Fits depth (.negative n)
  | bytes {depth : Nat} {content : List UInt8} (hn : content.length < 2 ^ 64) : Fits depth (.bytes content)
  | text {depth : Nat} {content : String} (hn : content.utf8ByteSize < 2 ^ 64) : Fits depth (.text content)
  | array {depth : Nat} {items : List Item} (hn : items.length < 2 ^ 64) (h : ∀ item ∈ items, Fits depth item) :
    Fits (depth + 1) (.array items)
  | map {depth : Nat} {entries : List (Item × Item)} (hn : entries.length < 2 ^ 64)
    (hkeys : ∀ e ∈ entries, Fits depth e.1) (hvalues : ∀ e ∈ entries, Fits depth e.2) :
    Fits (depth + 1) (mapOf entries)
  | tagged {depth tag : Nat} {item : Item} (hn : tag < 2 ^ 64) (h : Fits depth item) :
    Fits (depth + 1) (.tagged tag item)
  | bool {depth : Nat} (value : Bool) : Fits depth (.bool value)
  | null {depth : Nat} : Fits depth .null
  | undefined {depth : Nat} : Fits depth .undefined
  | float {depth : Nat} : Fits depth .float

theorem Fits.mono {depth depth' : Nat} {item : Item} (h : Fits depth item) (hle : depth ≤ depth') :
    Fits depth' item := by
  induction h generalizing depth' with
  | unsigned hn => exact .unsigned hn
  | negative hn => exact .negative hn
  | bytes hn => exact .bytes hn
  | text hn => exact .text hn
  | array hn _ ih =>
    cases depth' with
    | zero => exact absurd hle (Nat.not_succ_le_zero _)
    | succ d => exact .array hn fun item hitem => ih item hitem (Nat.le_of_succ_le_succ hle)
  | map hn _ _ ihkeys ihvalues =>
    cases depth' with
    | zero => exact absurd hle (Nat.not_succ_le_zero _)
    | succ d =>
      exact .map hn (fun e he => ihkeys e he (Nat.le_of_succ_le_succ hle))
        fun e he => ihvalues e he (Nat.le_of_succ_le_succ hle)
  | tagged hn _ ih =>
    cases depth' with
    | zero => exact absurd hle (Nat.not_succ_le_zero _)
    | succ d => exact .tagged hn (ih (Nat.le_of_succ_le_succ hle))
  | bool value => exact .bool value
  | null => exact .null
  | undefined => exact .undefined
  | float => exact .float

theorem writeAll_eq (items : List Item) : writeAll items = items.flatMap write := by
  induction items with
  | nil => rw [writeAll, List.flatMap_nil]
  | cons item items ih => rw [writeAll, List.flatMap_cons, ih]

theorem writeEntries_eq (entries : List (Item × Item)) :
    writeEntries entries = entries.flatMap fun e => e.1.write ++ e.2.write := by
  induction entries with
  | nil => rw [writeEntries, List.flatMap_nil]
  | cons e entries ih => rw [writeEntries, List.flatMap_cons, ih]

variable {nested : Option (Reader Item)} {major low n : Nat} {l : List UInt8} {item : Item}

/-- The initial byte tells what the content is. -/
theorem reads_readWith (hmajor : major < 8) (hlow : low < 32) (h : Reads (content nested major low) l item) :
    Reads (readWith nested) ((32 * major + low).toUInt8 :: l) item := by
  rw [← List.singleton_append]
  refine (Reads.byte _).bind ?_
  dsimp only
  rwa [initial_toNat hmajor hlow, show (32 * major + low) / 32 = major by omega,
    show (32 * major + low) % 32 = low by omega]

/-- After a head, the number in it tells what the content is. -/
theorem reads_head {next : Nat → Argument → Reader Item} (hmajor : major < 8)
    (hcontent : ∀ low, content nested major low = Argument.read low >>= next low) (hn : n < 2 ^ 64)
    (h : ∀ low, (low < 24 ↔ n < 24) → Reads (next low (.number n)) l item) :
    Reads (readWith nested) (head major n ++ l) item := by
  obtain ⟨low, hlow, hsmall, tail, hhead, hread⟩ := head_reads hn
  rw [hhead]
  refine reads_readWith hmajor hlow (l := tail ++ l) ?_
  rw [hcontent]
  exact hread.bind (h low hsmall)

theorem reads_ofUtf8 (content : String) : Reads (ofUtf8 content.toUTF8.toList) [] (.text content) := by
  have hbytes : content.toUTF8.toList.toByteArray = content.toByteArray := by
    rw [Bytes.toList_eq]
    exact ByteArray.ext List.data_toByteArray
  unfold ofUtf8
  rw [hbytes, String.fromUTF8?, dif_pos content.isValidUTF8]
  exact Reads.pure _

/-- The reader for a depth is a reader with or without containers. -/
theorem read_eq (depth : Nat) : ∃ nested, read depth = readWith nested := by
  cases depth with
  | zero => exact ⟨_, rfl⟩
  | succ depth => exact ⟨_, rfl⟩

/-- An item with a head that is no container is read at any depth. -/
theorem reads_flat {depth : Nat} {next : Argument → Reader Item} (hmajor : major < 8)
    (hcontent : ∀ nested low, content nested major low = Argument.read low >>= next) (hn : n < 2 ^ 64)
    (h : Reads (next (.number n)) l item) : Reads (read depth) (head major n ++ l) item := by
  obtain ⟨nested, heq⟩ := read_eq depth
  rw [heq]
  exact reads_head hmajor (hcontent nested) hn fun _ _ => h

/-- A constant is read at any depth. -/
theorem reads_simple {depth : Nat} (low : Nat) (hlow : low < 32) (h : Reads (simple low) l item) :
    Reads (read depth) ((32 * 7 + low).toUInt8 :: l) item := by
  obtain ⟨nested, heq⟩ := read_eq depth
  rw [heq]
  exact reads_readWith (by omega) hlow h

/-- Items that fit are read back. -/
theorem Fits.reads {depth : Nat} {item : Item} (h : Fits depth item) : Reads (read depth) item.write item := by
  induction h with
  | @unsigned depth n hn =>
    rw [write, ← List.append_nil (head 0 n)]
    exact reads_flat (by omega) (fun _ _ => rfl) hn ((Reads.pure n).map Item.unsigned)
  | @negative depth n hn =>
    rw [write, ← List.append_nil (head 1 n)]
    exact reads_flat (by omega) (fun _ _ => rfl) hn ((Reads.pure n).map Item.negative)
  | @bytes depth content hn =>
    rw [write]
    exact reads_flat (by omega) (fun _ _ => rfl) hn ((Reads.take content).map Item.bytes)
  | @text depth content hn =>
    have htake := Reads.take content.toUTF8.toList
    rw [Bytes.length_toUTF8] at htake
    rw [write, ← List.append_nil content.toUTF8.toList]
    exact reads_flat (by omega) (fun _ _ => rfl) hn (htake.bind (reads_ofUtf8 content))
  | array hn _ ih =>
    rw [write, writeAll_eq]
    exact reads_head (by omega) (fun _ => rfl) hn fun _ _ => (Reads.times ih).map Item.array
  | @map depth entries hn _ _ ihkeys ihvalues =>
    have hentry (e : Item × Item) (he : e ∈ entries) :
        Reads (Prod.mk <$> read depth <*> read depth) (e.1.write ++ e.2.write) e :=
      ((ihkeys e he).map Prod.mk).seq (ihvalues e he)
    rw [mapOf, write, writeEntries_eq]
    refine reads_head (by omega) (fun _ => rfl) hn fun low hsmall => ?_
    rw [← decide_eq_decide.2 hsmall]
    exact (Reads.times hentry).map (Item.map (low < 24))
  | @tagged depth tag item hn _ ih =>
    rw [write]
    exact reads_head (by omega) (fun _ => rfl) hn fun _ _ => ((Reads.pure tag).map Item.tagged).seq ih
  | bool value =>
    cases value with
    | false => exact reads_simple 20 (by omega) (Reads.pure _)
    | true => exact reads_simple 21 (by omega) (Reads.pure _)
  | null => exact reads_simple 22 (by omega) (Reads.pure _)
  | undefined => exact reads_simple 23 (by omega) (Reads.pure _)
  | float => exact reads_simple 25 (by omega) ((Reads.take [0, 0]).bind (Reads.pure _))

theorem parse?_write {item : Item} (h : Fits maxDepth item) : parse? item.write = some item := by
  have hread := h.reads []
  rw [List.append_nil] at hread
  rw [parse?, hread]

end Item

end ProcessCalculus.Cbor
