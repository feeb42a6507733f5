import ProcessCalculus.Bytes.Sha256
import ProcessCalculus.Program.Basic

/-!
# Digests of terms and programs

Every term has a digest that depends on the term alone, not on the identifiers it is stored
under: the hash of a domain, which names the kind of term, and of a payload, which is built from
the digests of the subterms. A name stands for itself, so recursion through definitions does not
matter. The digest of a program covers its names, in order, with the digests of their definitions.

The digests of subterms are found by recursion, and noted, so that none is found twice; a loop would keep
a stack of terms whose subterms are not done. The hash function is a parameter, for which SHA-256 is put in
the end.

* `HashFunction.ofPayload`: the hash of a payload in a domain.
* `HashFunction.ofTerm`, `HashFunction.ofProgram`: the digests of a term and of a program.
* `Digest.ofPayload`, `Digest.ofTerm`, `Digest.ofProgram`: what they are with SHA-256.
-/

namespace ProcessCalculus

/-- A hash of 32 bytes. -/
structure Digest where
  bytes : Vector UInt8 32
deriving DecidableEq

namespace Digest

/-- Digests are compared byte by byte. -/
instance : Ord Digest where
  compare := compareOn fun d => d.bytes.toList

/-- The digest of 32 zero bytes. -/
def zero : Digest :=
  ⟨Vector.replicate 32 0⟩

/-- The short written form: the first four bytes. -/
def text (d : Digest) : String :=
  "HashValue(" ++ Bytes.hex (d.bytes.toList.take 4) ++ "…)"

/-- The long written form: all bytes in decimal. -/
def fullText (d : Digest) : String :=
  "HashValue(" ++ Text.bracketed (d.bytes.toList.map fun b => toString b.toNat) ++ ")"

/-- A text in a payload: its length in bytes, and its bytes. -/
def ofText (s : String) : List UInt8 :=
  Bytes.littleEndian 8 s.toUTF8.size ++ s.toUTF8.toList

/-- An action in a payload. -/
def ofAction : Action → List UInt8
  | .silent => [0]
  | .visible label .input => 1 :: ofText label
  | .visible label .output => 2 :: ofText label
  | .delay duration => 3 :: Bytes.littleEndian 4 duration.toNat

/-- The domain of a kind of term. -/
def domain {α : Type} : Node α → String
  | .null => "NULL"
  | .named .. => "NAMED"
  | .sum .. => "SUM"
  | .parallel .. => "PARALLEL"
  | .act .. => "PREFIX"
  | .restrict .. => "RESTRICTION"
  | .rename .. => "RELABELLING"
  | .delay .. => "DELAY"

/-- The payload of a term former over the digests of its subterms. -/
def payload : Node Digest → List UInt8
  | .null => []
  | .named name _ => ofText name
  | .sum l r | .parallel l r => l.bytes.toList ++ r.bytes.toList
  | .act a p => ofAction a ++ p.bytes.toList
  | .delay d p => Bytes.littleEndian 4 d.toNat ++ p.bytes.toList
  | .restrict p labels =>
    Bytes.littleEndian 8 labels.size ++ labels.toList.flatMap ofText ++ p.bytes.toList
  | .rename p renames =>
    renames.renames.flatMap (fun e => ofText e.old ++ ofText e.new) ++ p.bytes.toList

/-- Digests of the terms met so far. -/
abbrev Known := Std.TreeMap ProcessId Digest

end Digest

/-- A hash function has 32 bytes for any bytes. -/
abbrev HashFunction := List UInt8 → Vector UInt8 32

namespace HashFunction

open Digest

variable (hash : HashFunction)

/-- The hash of a payload in a domain. The length of the payload is hashed with it. -/
def ofPayload (domain payload : List UInt8) : Digest :=
  ⟨hash ("CCS:".toUTF8.toList ++ domain ++ ":v1".toUTF8.toList ++
    Bytes.littleEndian 8 payload.length ++ payload)⟩

/-- The digest of a term former over the digests of its subterms. -/
def ofNode (node : Node Digest) : Digest :=
  hash.ofPayload (domain node).toUTF8.toList (payload node)

/-- The digest of the term under an identifier, at most `depth` levels deep. -/
def visit (p : Program) : (depth : Nat) → ProcessId → EStateM Fault Known Digest
  | 0, _ => throw .searchExhausted
  | depth + 1, id => do
    if let some digest := (← get)[id]? then
      return digest
    match p.node? id with
    | none => throw (.missingProcess id)
    | some node =>
      let digest := hash.ofNode (← node.traverse (visit p depth))
      modify (·.insert id digest)
      return digest

/-- The digest of the term under an identifier. Digests that are known already are used as they
are. -/
def ofTerm (p : Program) (id : ProcessId) : EStateM Fault Known Digest :=
  hash.visit p p.depthBound id

/-- A named process in the payload of a program. -/
def ofDefinition (p : Program) (id : ProcessId) : EStateM Fault Known (List UInt8) := do
  match p.node? id with
  | none => throw (.missingProcess id)
  | some (.named name (some body)) =>
    return ofText name ++ 1 :: (← hash.ofTerm p body).bytes.toList
  | some (.named name none) => return ofText name ++ [0]
  | some _ => return [0]

/-- The digest of a program. -/
def ofProgram (p : Program) : Except Fault Digest :=
  match (p.named.mapM (hash.ofDefinition p)).run ∅ with
  | .ok definitions _ => .ok (hash.ofPayload "PROGRAM".toUTF8.toList definitions.flatten)
  | .error e _ => .error e

end HashFunction

namespace Digest

/-- The SHA-256 hash of a payload in a domain. -/
def ofPayload (domain payload : List UInt8) : Digest :=
  HashFunction.ofPayload Sha256.digest domain payload

/-- The digest of a term with SHA-256. -/
def ofTerm (p : Program) (id : ProcessId) : EStateM Fault Known Digest :=
  HashFunction.ofTerm Sha256.digest p id

/-- The digest of a program with SHA-256. -/
def ofProgram (p : Program) : Except Fault Digest :=
  HashFunction.ofProgram Sha256.digest p

end Digest

end ProcessCalculus
