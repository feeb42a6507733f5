/-!
# Numbers as bytes

Fixed numbers of bytes for a number, in either order, and the hexadecimal text of bytes.

* `ofBigEndian_bigEndian_succ`: how a number is read back, byte by byte.
* `length_bigEndian`, `length_littleEndian`: the number of bytes is the one asked for.
-/

namespace ProcessCalculus.Bytes

/-- The `n` low bytes of a number, the least significant first. -/
def littleEndian : (n : Nat) → Nat → List UInt8
  | 0, _ => []
  | n + 1, x => (x % 256).toUInt8 :: littleEndian n (x / 256)

/-- The `n` low bytes of a number, the most significant first. -/
def bigEndian (n x : Nat) : List UInt8 :=
  (littleEndian n x).reverse

/-- The number that bytes stand for, the most significant first. -/
def ofBigEndian (bytes : List UInt8) : Nat :=
  bytes.foldl (fun x b => 256 * x + b.toNat) 0

/-- The hexadecimal digits of a byte, two of them, in lower case. -/
def hexByte (b : UInt8) : String :=
  String.ofList [Nat.digitChar (b.toNat / 16), Nat.digitChar (b.toNat % 16)]

/-- The hexadecimal digits of a list of bytes. -/
def hex (bytes : List UInt8) : String :=
  String.join (bytes.map hexByte)

@[simp] theorem length_littleEndian (n x : Nat) : (littleEndian n x).length = n := by
  induction n generalizing x with
  | zero => rfl
  | succ n ih => simp [littleEndian, ih]

@[simp] theorem length_bigEndian (n x : Nat) : (bigEndian n x).length = n := by
  simp [bigEndian]

/-- Reading takes the bytes apart again: the last byte of the written form is the lowest. -/
theorem ofBigEndian_bigEndian_succ (n x : Nat) :
    ofBigEndian (bigEndian (n + 1) x) = 256 * ofBigEndian (bigEndian n (x / 256)) + x % 256 := by
  simp [ofBigEndian, bigEndian, littleEndian]

end ProcessCalculus.Bytes
