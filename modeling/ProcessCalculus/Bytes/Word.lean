/-!
# Rotations of words

Words of 32 bits turned by a number of bits. Shifts of words take the amount modulo the width, so
that turning by no bits needs no case of its own.
-/

namespace ProcessCalculus.Bytes

/-- The word turned by `n` bits towards the high end. -/
def rotateLeft (w n : UInt32) : UInt32 :=
  (w <<< n) ||| (w >>> (32 - n))

/-- The word turned by `n` bits towards the low end. -/
def rotateRight (w n : UInt32) : UInt32 :=
  (w >>> n) ||| (w <<< (32 - n))

end ProcessCalculus.Bytes
