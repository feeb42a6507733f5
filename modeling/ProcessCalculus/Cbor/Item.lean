import ProcessCalculus.Bytes.Numbers

/-!
# Data items of CBOR

CBOR is a binary format of nested data items. An item is written with the shortest heads and with
all lengths given in advance.

* `Item.write`: the bytes of an item.
-/

namespace ProcessCalculus.Cbor

/-- A data item, as far as values of the calculus need it. Floating point numbers are told from
other items, but not kept. -/
inductive Item where
  | unsigned (n : Nat)
  /-- The number `-1 - n`. -/
  | negative (n : Nat)
  | bytes (content : List UInt8)
  | text (content : String)
  | array (items : List Item)
  /-- Entries in order. The map is compact if its head is one byte, with the number of entries. -/
  | map (compact : Bool) (entries : List (Item × Item))
  /-- An item with a tag in front, which says what is meant by it. -/
  | tagged (tag : Nat) (item : Item)
  | bool (value : Bool)
  | null
  | undefined
  | float

/-- The head of an item: its major type, and its length or value in the shortest form. -/
def head (major n : Nat) : List UInt8 :=
  if n < 24 then [(32 * major + n).toUInt8]
  else if n < 256 then (32 * major + 24).toUInt8 :: Bytes.bigEndian 1 n
  else if n < 65536 then (32 * major + 25).toUInt8 :: Bytes.bigEndian 2 n
  else if n < 4294967296 then (32 * major + 26).toUInt8 :: Bytes.bigEndian 4 n
  else (32 * major + 27).toUInt8 :: Bytes.bigEndian 8 n

namespace Item

/-- A map that is written with its number of entries in front. -/
def mapOf (entries : List (Item × Item)) : Item :=
  .map (entries.length < 24) entries

/-- A record: a map from the names of its fields. -/
def record (fields : List (String × Item)) : Item :=
  mapOf (fields.map fun (name, value) => (.text name, value))

/-- A case of a variant type that has content: a map from the name of the case. -/
def variant (name : String) (content : Item) : Item :=
  mapOf [(.text name, content)]

mutual

/-- The bytes of an item. A floating point number is written as a half-precision zero. -/
def write : Item → List UInt8
  | unsigned n => head 0 n
  | negative n => head 1 n
  | bytes content => head 2 content.length ++ content
  | text content => head 3 content.utf8ByteSize ++ content.toUTF8.toList
  | array items => head 4 items.length ++ writeAll items
  | map _ entries => head 5 entries.length ++ writeEntries entries
  | tagged tag item => head 6 tag ++ item.write
  | bool false => [0xf4]
  | bool true => [0xf5]
  | null => [0xf6]
  | undefined => [0xf7]
  | float => [0xf9, 0, 0]

/-- The bytes of items in a row. -/
def writeAll : List Item → List UInt8
  | [] => []
  | item :: items => item.write ++ writeAll items

/-- The bytes of the entries of a map. -/
def writeEntries : List (Item × Item) → List UInt8
  | [] => []
  | (key, value) :: entries => key.write ++ value.write ++ writeEntries entries

end

end Item

end ProcessCalculus.Cbor
