import FsTrace.Bytes
import FsTrace.Text.Hex

/-!
# Bytes as printable ASCII

* `escapeByte`, `escapeBytes`: tab, line ends, quotes and the backslash get a backslash, other
  bytes outside printable ASCII become `\x` and two digits, everything else stands for itself.
-/

namespace FsTrace.Text

/-- One byte in printable ASCII. -/
def escapeByte (b : UInt8) : String :=
  if b = 9 then "\\t"
  else if b = 10 then "\\n"
  else if b = 13 then "\\r"
  else if b = 34 then "\\\""
  else if b = 39 then "\\'"
  else if b = 92 then "\\\\"
  else if 32 ≤ b ∧ b < 127 then String.singleton (Char.ofNat b.toNat)
  else "\\x" ++ hexPadded 2 b.toNat

/-- Bytes in printable ASCII. -/
def escapeBytes (bs : Bytes) : String := String.join (bs.map escapeByte)

end FsTrace.Text
