import ProcessCalculus.Cbor.Reader

/-!
# Values in items

How numbers, texts, records and variants stand in items, and how they are found there. Tags are
passed over. The fields of a record are named by text, or by their position as a number; fields
that the record does not have are passed over, but none may come twice. The fields may also be
listed in order, without names.
-/

namespace ProcessCalculus.Cbor

namespace Item

/-- The item behind any tags. -/
def untagged : Item → Item
  | tagged _ item => item.untagged
  | item => item

/-- A number below a bound. -/
def below? (bound : Nat) (item : Item) : Option Nat :=
  match item.untagged with
  | unsigned n => if n < bound then some n else none
  | _ => none

def bool? (item : Item) : Option Bool :=
  match item.untagged with
  | bool value => some value
  | _ => none

/-- A text. Bytes stand for one if they are valid UTF-8. -/
def text? (item : Item) : Option String :=
  match item.untagged with
  | text content => some content
  | bytes content => String.fromUTF8? content.toByteArray
  | _ => none

def list? (item : Item) : Option (List Item) :=
  match item.untagged with
  | array items => some items
  | _ => none

def entries? (item : Item) : Option (List (Item × Item)) :=
  match item.untagged with
  | map _ entries => some entries
  | _ => none

/-- Whether an item says nothing. -/
def isUnit (item : Item) : Bool :=
  match item.untagged with
  | null | undefined => true
  | _ => false

/-- The position of a name among known ones; the name may be given as text, as bytes, or by its
position. The answer is `none` if the item names nothing, and `some none` if it names something
unknown. -/
def position? (names : List String) (item : Item) : Option (Option Nat) :=
  match item.untagged with
  | unsigned n => some (if n < names.length then some n else none)
  | text name => some (names.idxOf? name)
  | bytes name => some (names.findIdx? fun known => known.toUTF8.toList == name)
  | _ => none

/-- The case of a variant type: its position among the names, and its content. A case without
content is its name alone; a case with content is a compact map with one entry, or an array of the
name and the content. -/
def case? (names : List String) (item : Item) : Option (Nat × Option Item) :=
  match item with
  | map true [(key, content)] | array [key, content] => do
    let index ← (← key.position? names)
    return (index, some content)
  | item => do
    let index ← (← item.position? names)
    return (index, none)

end Item

/-- What was found for the fields of a record, in the order of their declaration. `named` says
whether the fields were named, so that some may be left out. -/
structure Fields where
  named : Bool
  values : List (Option Item)

namespace Fields

/-- Puts the value of a named field at its place. -/
def place (names : List String) (values : List (Option Item)) (entry : Item × Item) :
    Option (List (Option Item)) := do
  match ← entry.1.position? names with
  | none => return values
  | some index =>
    if (values[index]?.join).isSome then none
    else return values.set index (some entry.2)

/-- The fields of a record with the given field names. -/
def ofItem? (names : List String) (item : Item) : Option Fields :=
  match item.untagged with
  | .map _ entries => do
    let values ← entries.foldlM (place names) (names.map fun _ => none)
    return ⟨true, values⟩
  | .array items =>
    if items.length ≤ names.length then
      some ⟨false, items.map some⟩
    else none
  | _ => none

/-- The item of a field. -/
def get? (fields : Fields) (index : Nat) : Option Item :=
  fields.values[index]?.join

/-- The value of a field that has to be there. -/
def required {α : Type} (fields : Fields) (index : Nat) (decode? : Item → Option α) : Option α := do
  decode? (← fields.get? index)

/-- The value of a field that may be left out, for which a given value then stands. -/
def withDefault {α : Type} (fields : Fields) (index : Nat) (default : α)
    (decode? : Item → Option α) : Option α :=
  match fields.get? index with
  | some item => decode? item
  | none => some default

/-- The value of a field that may be null, or left out if the fields are named. -/
def optional {α : Type} (fields : Fields) (index : Nat) (decode? : Item → Option α) :
    Option (Option α) :=
  match fields.get? index with
  | some .null => some none
  | some item => some <$> decode? item
  | none => if fields.named then some none else none

end Fields

end ProcessCalculus.Cbor
