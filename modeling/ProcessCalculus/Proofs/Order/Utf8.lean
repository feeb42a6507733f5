import Mathlib.Tactic.SplitIfs
import ProcessCalculus.Proofs.Program.Encoding

/-!
# Texts and their bytes

Texts are compared character by character. The bytes that encode them, compared one by one, stand in the same order: of
two characters the earlier one has the earlier encoding, and no encoding begins another one.

* `Bytes.encode_append_lt`: the first character in which two texts differ decides.
* `Bytes.toUTF8_lt_iff`: the order of texts is the order of their bytes.
-/

namespace ProcessCalculus

namespace Bytes

/-- The bytes of a text are those of its characters. -/
theorem toList_toUTF8 (s : String) : s.toUTF8.toList = s.toList.flatMap String.utf8EncodeChar := by
  rw [toList_eq, show s.toUTF8 = s.toList.utf8Encode from String.utf8Encode_toList.symm, List.utf8Encode,
    List.data_toByteArray]

/-- The encodings of different characters differ at a place where the earlier character has the smaller byte, whatever
follows. -/
theorem encode_append_lt {c d : Char} (h : c < d) (l r : List UInt8) :
    String.utf8EncodeChar c ++ l < String.utf8EncodeChar d ++ r := by
  have hlt : c.val.toNat < d.val.toNat := h
  have hmax : d.val.toNat < 0x110000 := d.valid.elim (fun h => Nat.lt_trans h (by decide)) fun h => h.2
  generalize hv : c.val.toNat = v at hlt
  generalize hw : d.val.toNat = w at hlt hmax
  have hdigits (n : Nat) : n / 4096 = n / 64 / 64 ∧ n / 262144 = n / 64 / 64 / 64 := by
    simp only [Nat.div_div_eq_div_mul, Nat.reduceMul, and_self]
  unfold String.utf8EncodeChar
  simp only [hv, hw, (hdigits _).1, (hdigits _).2]
  -- a longer encoding starts with a larger byte, and encodings of one length are compared digit by digit
  split_ifs <;> simp only [List.cons_append, List.nil_append, List.cons_lt_cons_iff, UInt8.lt_iff_toNat_lt,
    ← UInt8.toNat_inj, UInt8.toNat_ofNat', Nat.reducePow] <;> omega

/-- Of two lists of characters, the bytes of the earlier one come earlier. -/
theorem flatMap_encode_lt {l r : List Char} (h : l < r) :
    l.flatMap String.utf8EncodeChar < r.flatMap String.utf8EncodeChar := by
  replace h : List.Lex (· < ·) l r := h
  induction h with
  | @nil d r =>
    obtain ⟨b, t, hbt⟩ := List.exists_cons_of_ne_nil (String.utf8EncodeChar_ne_nil (c := d))
    rw [List.flatMap_nil, List.flatMap_cons, hbt]
    exact List.Lex.nil
  | cons _ ih =>
    rw [List.flatMap_cons, List.flatMap_cons]
    exact List.append_left_lt ih
  | rel hcd =>
    rw [List.flatMap_cons, List.flatMap_cons]
    exact encode_append_lt hcd _ _

/-- One text is less than another exactly if its bytes are. -/
theorem toUTF8_lt_iff {s t : String} : s.toUTF8.toList < t.toUTF8.toList ↔ s < t := by
  have hlt {s t : String} (h : s < t) : s.toUTF8.toList < t.toUTF8.toList := by
    rw [toList_toUTF8, toList_toUTF8]
    exact flatMap_encode_lt (String.lt_iff.1 h)
  refine ⟨fun h => ?_, hlt⟩
  by_cases hst : s < t
  · exact hst
  · by_cases hts : t < s
    · exact absurd (hlt hts) (List.lt_asymm h)
    · rw [String.le_antisymm (String.not_lt.1 hts) (String.not_lt.1 hst)] at h
      exact absurd h (List.lt_irrefl _)

end Bytes

end ProcessCalculus
