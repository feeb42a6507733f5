import ProcessCalculus.Cbor.Fields
import ProcessCalculus.Program.Digest
import ProcessCalculus.Explorer.Settings
import ProcessCalculus.Transition.Partition

/-!
# Values of the calculus in CBOR

For each type that is stored: the item of a value, and the value of an item.
-/

namespace ProcessCalculus.Cbor

/-- How the values of a type stand in items. -/
structure Codec (α : Type) where
  encode : α → Item
  decode? : Item → Option α

namespace Codec

variable {α : Type}

/-- The bytes of a value. -/
def toBytes (codec : Codec α) (a : α) : List UInt8 :=
  (codec.encode a).write

/-- The value that the bytes encode, or the fault that there is none. -/
def ofBytes (codec : Codec α) (bytes : List UInt8) : Except Fault α :=
  match Item.parse? bytes with
  | none => .error (.malformed "no data item")
  | some item =>
    match codec.decode? item with
    | none => .error (.malformed "not a value of the type")
    | some a => .ok a

/-- Numbers of 32 bits. -/
def word : Codec Nat where
  encode := .unsigned
  decode? := Item.below? identifierCount

def text : Codec String where
  encode := .text
  decode? := Item.text?

def bool : Codec Bool where
  encode := .bool
  decode? := Item.bool?

/-- Lists of values, as arrays. -/
def list (codec : Codec α) : Codec (List α) where
  encode l := .array (l.map codec.encode)
  decode? item := do (← item.list?).mapM codec.decode?

/-- Identifiers are numbers. -/
def processId : Codec ProcessId := word

def duration : Codec UInt32 where
  encode d := word.encode d.toNat
  decode? item := Nat.toUInt32 <$> word.decode? item

/-- The value made of the two fields of a record. -/
def pair? {β γ : Type} (first : String × Codec α) (second : String × Codec β) (make : α → β → γ)
    (item : Item) : Option γ := do
  let fields ← Fields.ofItem? [first.1, second.1] item
  let a ← fields.required 0 first.2.decode?
  let b ← fields.required 1 second.2.decode?
  return make a b

def action : Codec Action where
  encode
    | .silent => .text "Tau"
    | .visible label polarity => .variant "Visible" <| .record
      [("label", text.encode label), ("complement", bool.encode (polarity == .output))]
    | .delay d => .variant "Delay" (duration.encode d)
  decode? item := do
    match ← item.case? ["Tau", "Visible", "Delay"] with
    | (0, content) => if content.all Item.isUnit then some .silent else none
    | (1, some content) =>
      let visible label isOutput := Action.visible label (if isOutput then .output else .input)
      pair? ("label", text) ("complement", bool) visible content
    | (2, some content) => .delay <$> duration.decode? content
    | _ => none

def transition : Codec Transition where
  encode t := .record [("action", action.encode t.action), ("target", processId.encode t.target)]
  decode? item := pair? ("action", action) ("target", processId) Transition.mk item

/-- A set of transitions is stored as the list of its members in order. It may be read from a
list in any order. -/
def transitions : Codec Transitions where
  encode ts := transition.list.encode ts.toList
  decode? item := TreapSet.ofList <$> transition.list.decode? item

def labels : Codec LabelSet where
  encode s := text.list.encode s.toList
  decode? item := LabelSet.ofList <$> text.list.decode? item

/-- A rename as an entry of a map from old labels to new ones. -/
def rename? (entry : Item × Item) : Option Rename := do
  return ⟨← text.decode? entry.1, ← text.decode? entry.2⟩

def renames : Codec Renaming where
  encode r := .record
    [("renames", .mapOf (r.renames.map fun e => (text.encode e.old, text.encode e.new)))]
  decode? item := do
    let fields ← Fields.ofItem? ["renames"] item
    let renames ← fields.required 0 fun item => do (← item.entries?).mapM rename?
    return .ofList renames

def node : Codec (Node ProcessId) where
  encode
    | .null => .text "Null"
    | .named name body => .variant "Named" <| .record
      [("name", text.encode name), ("body", (body.map processId.encode).getD .null)]
    | .sum l r => .variant "Sum" <| .record
      [("left", processId.encode l), ("right", processId.encode r)]
    | .parallel l r => .variant "Parallel" <| .record
      [("left", processId.encode l), ("right", processId.encode r)]
    | .act a p => .variant "ActionPrefix" <| .record
      [("action", action.encode a), ("next", processId.encode p)]
    | .restrict p ls => .variant "Restriction" <| .record
      [("body", processId.encode p), ("labels", labels.encode ls)]
    | .rename p r => .variant "Relabelling" <| .record
      [("body", processId.encode p), ("relabelling", renames.encode r)]
    | .delay d p => .variant "DelayPrefix" <| .record
      [("delay", duration.encode d), ("next", processId.encode p)]
  decode? item := do
    match ← item.case? ["Null", "Named", "Sum", "Parallel", "ActionPrefix", "Restriction",
        "Relabelling", "DelayPrefix"] with
    | (0, content) => if content.all Item.isUnit then some .null else none
    | (1, some content) =>
      let fields ← Fields.ofItem? ["name", "body"] content
      let name ← fields.required 0 text.decode?
      let body ← fields.optional 1 processId.decode?
      return .named name body
    | (2, some content) => pair? ("left", processId) ("right", processId) .sum content
    | (3, some content) => pair? ("left", processId) ("right", processId) .parallel content
    | (4, some content) => pair? ("action", action) ("next", processId) .act content
    | (5, some content) => pair? ("body", processId) ("labels", labels) .restrict content
    | (6, some content) => pair? ("body", processId) ("relabelling", renames) .rename content
    | (7, some content) => pair? ("delay", duration) ("next", processId) .delay content
    | _ => none

def processClass : Codec ProcessClass where
  encode c := .record
    [("id", processId.encode c.representative), ("sub_processes", processId.list.encode c.members)]
  decode? item := pair? ("id", processId) ("sub_processes", processId.list) ProcessClass.mk item

/-- A digest is a list of its bytes, as numbers. -/
def digest : Codec Digest where
  encode d := .array (d.bytes.toList.map fun b => .unsigned b.toNat)
  decode? item := do
    let bytes ← (← item.list?).mapM (Item.below? 256)
    if h : bytes.length = 32 then
      return ⟨⟨(bytes.map Nat.toUInt8).toArray, by simp [h]⟩⟩
    else none

/-- Settings that are left out have their usual values. -/
def settings : Codec Settings where
  encode s := .record
    [("reduce", bool.encode s.simplify), ("weak", bool.encode s.saturate),
      ("reject_unguarded", bool.encode s.refuseUnguarded)]
  decode? item := do
    let fields ← Fields.ofItem? ["reduce", "weak", "reject_unguarded"] item
    let usual : Settings := {}
    let simplify ← fields.withDefault 0 usual.simplify bool.decode?
    let saturate ← fields.withDefault 1 usual.saturate bool.decode?
    let refuseUnguarded ← fields.withDefault 2 usual.refuseUnguarded bool.decode?
    return ⟨simplify, saturate, refuseUnguarded⟩

end Codec

end ProcessCalculus.Cbor
