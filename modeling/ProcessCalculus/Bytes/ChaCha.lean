import ProcessCalculus.Bytes.Word

/-!
# A reproducible stream of random words

The ChaCha stream cipher with eight rounds, used as a random number generator: a 64-bit seed is
stretched to a 256-bit key, and the `k`-th output is read off the key stream directly. The stream
is a function of seed and index, so a structure that draws from it only has to count.
-/

namespace ProcessCalculus.ChaCha

open Bytes (rotateLeft rotateRight)

/-- Four words, one row of the state. -/
structure Row where
  w0 : UInt32
  w1 : UInt32
  w2 : UInt32
  w3 : UInt32

namespace Row

def add (x y : Row) : Row := ⟨x.w0 + y.w0, x.w1 + y.w1, x.w2 + y.w2, x.w3 + y.w3⟩

/-- The exclusive or of two rows, turned left by `n` bits in every word. -/
def mix (x y : Row) (n : UInt32) : Row :=
  ⟨rotateLeft (x.w0 ^^^ y.w0) n, rotateLeft (x.w1 ^^^ y.w1) n,
    rotateLeft (x.w2 ^^^ y.w2) n, rotateLeft (x.w3 ^^^ y.w3) n⟩

/-- The row with its words moved one place to the left, cyclically. -/
def turn (x : Row) : Row := ⟨x.w1, x.w2, x.w3, x.w0⟩

/-- The `i`-th word, `i < 4`. -/
def word (x : Row) : Nat → UInt32
  | 0 => x.w0
  | 1 => x.w1
  | 2 => x.w2
  | _ => x.w3

end Row

/-- The state: a row of constants, two rows of key, and the row of the block counter. -/
structure State where
  a : Row
  b : Row
  c : Row
  d : Row

namespace State

/-- The quarter round, on all four columns at once. -/
def columnRound (s : State) : State :=
  let a := s.a.add s.b
  let d := s.d.mix a 16
  let c := s.c.add d
  let b := s.b.mix c 12
  let a := a.add b
  let d := d.mix a 8
  let c := c.add d
  let b := b.mix c 7
  ⟨a, b, c, d⟩

/-- A column round, and one on the diagonals, which turning the rows makes columns. -/
def doubleRound (s : State) : State :=
  let s := s.columnRound
  let s := columnRound ⟨s.a, s.b.turn, s.c.turn.turn, s.d.turn.turn.turn⟩
  ⟨s.a, s.b.turn.turn.turn, s.c.turn.turn, s.d.turn⟩

def add (s t : State) : State :=
  ⟨s.a.add t.a, s.b.add t.b, s.c.add t.c, s.d.add t.d⟩

/-- The block that a state gives: eight rounds of it, added to the state itself. -/
def block (s : State) : State :=
  s.doubleRound.doubleRound.doubleRound.doubleRound.add s

/-- The `i`-th word, `i < 16`. -/
def word (s : State) (i : Nat) : UInt32 :=
  match i / 4 with
  | 0 => s.a.word (i % 4)
  | 1 => s.b.word (i % 4)
  | 2 => s.c.word (i % 4)
  | _ => s.d.word (i % 4)

end State

/-- One step of the linear congruential generator that stretches a seed. -/
def stretch (state : UInt64) : UInt64 :=
  state * 6364136223846793005 + 11634580027462260723

/-- The word a stretched state yields: its upper bits folded, turned by its topmost five. -/
def permuted (state : UInt64) : UInt32 :=
  rotateRight (((state >>> 18) ^^^ state) >>> 27).toUInt32 (state >>> 59).toUInt32

/-- The next four key words after a state, and the state reached. -/
def keyRow (s0 : UInt64) : Row × UInt64 :=
  let s1 := stretch s0
  let s2 := stretch s1
  let s3 := stretch s2
  let s4 := stretch s3
  (⟨permuted s1, permuted s2, permuted s3, permuted s4⟩, s4)

/-- The initial state of the block with number `n`. The constants spell `expand 32-byte k`. -/
def initial (seed : UInt64) (n : Nat) : State :=
  let (k0, seed') := keyRow seed
  let (k1, _) := keyRow seed'
  ⟨⟨0x61707865, 0x3320646e, 0x79622d32, 0x6b206574⟩, k0, k1,
    ⟨n.toUInt32, (n / 4294967296).toUInt32, 0, 0⟩⟩

/-- The `k`-th 64-bit output for a seed: two neighbouring words of the stream, the low one
first. -/
def draw (seed : UInt64) (k : Nat) : UInt64 :=
  let block := (initial seed (k / 8)).block
  let i := 2 * (k % 8)
  (block.word i).toUInt64 + (block.word (i + 1)).toUInt64 * 4294967296

end ProcessCalculus.ChaCha
