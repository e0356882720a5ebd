import FsTrace.Text.Concealed
import FsTrace.Text.Hex

/-!
# Quoted text

Messages show names between double quotes, in a form that tells every character.

* `quotedChar`, `quoted`: quotes and backslashes get a backslash, controls have short forms or are
  written as a code point, as is every concealed character.
-/

namespace FsTrace.Text

/-- One character of quoted text. -/
def quotedChar (c : Char) : String :=
  if c.toNat = 0 then "\\0"
  else if c = '\t' then "\\t"
  else if c = '\r' then "\\r"
  else if c = '\n' then "\\n"
  else if c = '"' then "\\\""
  else if c = '\\' then "\\\\"
  else if c.toNat < 32 ∨ isConcealed c then "\\u\x7b" ++ hex c.toNat ++ "\x7d"
  else String.singleton c

/-- Text between double quotes. -/
def quoted (s : String) : String := "\"" ++ String.join (s.toList.map quotedChar) ++ "\""

end FsTrace.Text
