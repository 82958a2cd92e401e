import Multimatch.Text.Hidden

/-!
# Quoted text

A text in quotes shows every character as itself, except for those that would be read as part of the
quoting (the quote and the backslash) and those that cannot be seen. Some of these have a letter of
their own; the others are written by their number.
-/

namespace Multimatch.Text

/-- What stands for a character between quotes. -/
def escape (c : Char) : String :=
  if c = '"' then "\\\""
  else if c = Char.ofNat 0x5c then "\\\\"
  else if c = Char.ofNat 0 then "\\0"
  else if c = Char.ofNat 9 then "\\t"
  else if c = Char.ofNat 10 then "\\n"
  else if c = Char.ofNat 13 then "\\r"
  else if isHidden c then
    "\\u\x7b" ++ String.ofList (Nat.toDigits 16 c.toNat) ++ "\x7d"
  else c.toString

def quote (text : String) : String :=
  "\"" ++ String.join (text.toList.map escape) ++ "\""

end Multimatch.Text
