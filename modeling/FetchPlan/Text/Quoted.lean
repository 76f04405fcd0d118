import FetchPlan.Text.Glyph

/-!
# Quoted strings

A string as it is shown to a reader: in quotes, with the quote and the backslash escaped, and
every character that would not show named by its escape or by its number.
-/

namespace FetchPlan.Quoted

/-- A character between quotes. -/
def escape (c : Char) : String :=
  if c = '"' then "\\\""
  else if c = '\\' then "\\\\"
  else if c = '\n' then "\\n"
  else if c = '\r' then "\\r"
  else if c = '\t' then "\\t"
  else if c = '\x00' then "\\0"
  else if hasGlyph c then c.toString
  else "\\u\x7b" ++ String.ofList (Nat.toDigits 16 c.toNat) ++ "\x7d"

/-- A string in quotes. -/
def quote (s : String) : String := "\"" ++ String.join (s.toList.map escape) ++ "\""

end FetchPlan.Quoted
