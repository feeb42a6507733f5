/-!
# Layout of text

The written forms of lists, sets and records, from the written forms of their parts.
-/

namespace ProcessCalculus.Text

/-- The pieces in order, with the separator between neighbours. -/
def join (separator : String) (pieces : List String) : String :=
  separator.intercalate pieces

/-- Pieces between brackets: `[a, b]`. -/
def bracketed (pieces : List String) : String :=
  "[" ++ join ", " pieces ++ "]"

/-- Pieces between braces: `\x7ba, b\x7d`. -/
def braced (pieces : List String) : String :=
  "\x7b" ++ join ", " pieces ++ "\x7d"

/-- A record: its name and its labelled fields, `Name \x7b field: value \x7d`. -/
def record (name : String) (fields : List (String × String)) : String :=
  name ++ " \x7b " ++ join ", " (fields.map fun (label, value) => label ++ ": " ++ value) ++ " \x7d"

end ProcessCalculus.Text
