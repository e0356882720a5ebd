/-!
# Reading text

What readers of different formats have in common.

* `digit?` and `codePoint?`, the value of a digit and the character of an escape in base sixteen;
* `push`, by which a reader of strings gives one character more.
-/

namespace FsTrace.Text

/-- The value of a digit, if it is one in the given base. -/
def digit? (base : Nat) (c : Char) : Option Nat :=
  let value? :=
    if '0' ≤ c ∧ c ≤ '9' then some (c.toNat - '0'.toNat)
    else if 'a' ≤ c ∧ c ≤ 'f' then some (c.toNat - 'a'.toNat + 10)
    else if 'A' ≤ c ∧ c ≤ 'F' then some (c.toNat - 'A'.toNat + 10)
    else none
  value?.filter (· < base)

/-- The character of a code point that is written in base sixteen. -/
def codePoint? (cs : List Char) : Option Char := do
  let code ← (cs.mapM (digit? 16)).map fun ds => ds.foldl (fun n d => n * 16 + d) 0
  if Nat.isValidChar code then some (Char.ofNat code) else none

/-- Puts a character in front of a string that was read. -/
def push (c : Char) (read : List Char × List Char) : List Char × List Char := (c :: read.1, read.2)

end FsTrace.Text
