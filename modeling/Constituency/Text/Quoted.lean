import Constituency.Text.Hidden

/-!
# Quoted text

Error messages show foreign text between double quotes, on one line and with
every character visible.
-/

namespace Constituency.Text

/-- A character by its code point in lower-case hexadecimal. -/
def numbered (c : Char) : String :=
  "\\u\x7b" ++ String.ofList (Nat.toDigits 16 c.toNat) ++ "\x7d"

/-- The spelling of one character between double quotes. -/
def quotedChar (c : Char) : String :=
  if c == '"' then "\\\""
  else if c == '\\' then "\\\\"
  else if c == '\t' then "\\t"
  else if c == '\n' then "\\n"
  else if c == '\r' then "\\r"
  else if c == '\x00' then "\\0"
  else if isHidden c then numbered c
  else c.toString

/-- The text between double quotes. -/
def quoted (s : String) : String :=
  "\"" ++ String.join (s.toList.map quotedChar) ++ "\""

end Constituency.Text
