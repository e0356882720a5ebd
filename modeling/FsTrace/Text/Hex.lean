/-!
# Hexadecimal text

Numbers in base sixteen with lower-case digits, as keys and escapes are written.

* `hex` has no leading zeros, `hexPadded` is filled up with zeros to a least width.
-/

namespace FsTrace.Text

/-- The digits of `n` in base sixteen. -/
def hex (n : Nat) : String := String.ofList (Nat.toDigits 16 n)

/-- The digits of `n` in base sixteen, filled up with zeros on the left. -/
def hexPadded (width n : Nat) : String :=
  let digits := Nat.toDigits 16 n
  String.ofList (List.replicate (width - digits.length) '0' ++ digits)

end FsTrace.Text
