import ProcessCalculus.Cbor.Item

/-!
# Reading CBOR

A reader takes an item off the front of a list of bytes. It accepts more than is written: longer
heads than necessary, and arrays, maps and texts without a length in front, which a break byte
ends. Items are nested less than 128 deep.

* `Item.parse?`: the item that all of the bytes encode.
-/

namespace ProcessCalculus.Cbor

/-- Takes a value off the front of the bytes, or fails. -/
abbrev Reader (α : Type) := StateT (List UInt8) Option α

namespace Reader

variable {α : Type}

def fail : Reader α :=
  fun _ => none

def byte : Reader UInt8
  | [] => none
  | b :: rest => some (b, rest)

/-- The next `n` bytes. -/
def take (n : Nat) : Reader (List UInt8) := fun input =>
  let taken := input.take n
  if taken.length = n then some (taken, input.drop n) else none

/-- The next `n` bytes as a number. -/
def number (n : Nat) : Reader Nat :=
  Bytes.ofBigEndian <$> take n

/-- Takes a break byte off, if it comes next. -/
def break? : Reader Bool
  | 0xff :: rest => some (true, rest)
  | input => some (false, input)

/-- Repeats a reader a number of times. -/
def times (read : Reader α) : Nat → Reader (List α)
  | 0 => pure []
  | n + 1 => do
    let a ← read
    let rest ← times read n
    return a :: rest

/-- Repeats a reader up to a break byte, at most `limit` times. -/
def untilBreakWithin (read : Reader α) : (limit : Nat) → Reader (List α)
  | 0 => fail
  | limit + 1 => do
    if ← break? then return []
    let a ← read
    let rest ← untilBreakWithin read limit
    return a :: rest

/-- Repeats a reader up to a break byte. Each repetition takes a byte at least. -/
def untilBreak (read : Reader α) : Reader (List α) := fun input =>
  untilBreakWithin read (input.length + 1) input

end Reader

/-- What the low bits of an initial byte say: a number, or that a break byte will end the item. -/
inductive Argument
  | number (n : Nat)
  | open
deriving DecidableEq

namespace Argument

open Reader

/-- The argument that the low five bits of an initial byte announce. -/
def read (low : Nat) : Reader Argument :=
  match low with
  | 24 => number <$> Reader.number 1
  | 25 => number <$> Reader.number 2
  | 26 => number <$> Reader.number 4
  | 27 => number <$> Reader.number 8
  | 31 => pure .open
  | low => if low < 24 then pure (number low) else fail

/-- The number, where nothing else makes sense. -/
def required : Argument → Reader Nat
  | .number n => pure n
  | .open => Reader.fail

end Argument

namespace Item

open Reader

/-- A reader of values in a row: as many as announced, or up to a break byte. -/
def row {α : Type} (read : Reader α) : Argument → Reader (List α)
  | .number n => times read n
  | .open => untilBreak read

/-- A piece of a string of the given major type that comes in pieces; its length stands in
front. -/
def chunk (major : Nat) : Reader (List UInt8) := do
  let initial := (← byte).toNat
  if initial / 32 = major then
    take (← (← Argument.read (initial % 32)).required)
  else fail

/-- The content of a string of the given major type. -/
def string (major : Nat) : Argument → Reader (List UInt8)
  | .number n => take n
  | .open => List.flatten <$> untilBreak (chunk major)

/-- Text must be valid UTF-8. -/
def ofUtf8 (content : List UInt8) : Reader Item :=
  match String.fromUTF8? content.toByteArray with
  | some content => pure (.text content)
  | none => fail

/-- The constants and floating point numbers. -/
def simple : (low : Nat) → Reader Item
  | 20 => pure (.bool false)
  | 21 => pure (.bool true)
  | 22 => pure .null
  | 23 => pure .undefined
  | 25 => do
    let _ ← take 2
    return .float
  | 26 => do
    let _ ← take 4
    return .float
  | 27 => do
    let _ ← take 8
    return .float
  | _ => fail

/-- What comes after an initial byte with the given major type and low bits. The items that it contains are read by
`nested`; without it, there may be no container. -/
def content (nested : Option (Reader Item)) (major low : Nat) : Reader Item :=
  match major, nested with
  | 0, _ => do
    let argument ← Argument.read low
    .unsigned <$> argument.required
  | 1, _ => do
    let argument ← Argument.read low
    .negative <$> argument.required
  | 2, _ => do
    let argument ← Argument.read low
    .bytes <$> string 2 argument
  | 3, _ => do
    let argument ← Argument.read low
    ofUtf8 (← string 3 argument)
  | 4, some read => do
    let argument ← Argument.read low
    .array <$> row read argument
  | 5, some read => do
    let argument ← Argument.read low
    .map (low < 24) <$> row (Prod.mk <$> read <*> read) argument
  | 6, some read => do
    let argument ← Argument.read low
    .tagged <$> argument.required <*> read
  | 7, _ => simple low
  | _, _ => fail

/-- The next item. -/
def readWith (nested : Option (Reader Item)) : Reader Item := do
  let initial := (← byte).toNat
  content nested (initial / 32) (initial % 32)

/-- The next item, with containers nested at most `depth` levels deep. -/
def read : (depth : Nat) → Reader Item
  | 0 => readWith none
  | depth + 1 => readWith (some (read depth))

/-- How deep items may be nested in one another. -/
def maxDepth : Nat := 127

/-- The item that the bytes encode; none of them may be left over. -/
def parse? (input : List UInt8) : Option Item :=
  match read maxDepth input with
  | some (item, []) => some item
  | _ => none

end Item

end ProcessCalculus.Cbor
