/-!
# Quoted text

The written form of a string as a value: between double quotes, with the quote, the backslash and
the control characters escaped.
-/

namespace ProcessCalculus.Text

/-- One character inside quotes. Control characters without a short form are given by number. -/
def escape (c : Char) : String :=
  match c with
  | '"' => "\\\""
  | '\\' => "\\\\"
  | '\n' => "\\n"
  | '\t' => "\\t"
  | '\r' => "\\r"
  | '\x00' => "\\0"
  | c =>
    if c.toNat < 0x20 ∨ c.toNat = 0x7f then
      "\\u\x7b" ++ String.ofList (Nat.toDigits 16 c.toNat) ++ "\x7d"
    else
      c.toString

/-- A string between double quotes, with `escape` applied to every character. -/
def quoted (s : String) : String :=
  "\"" ++ String.join (s.toList.map escape) ++ "\""

end ProcessCalculus.Text
