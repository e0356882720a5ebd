import FsTrace.Bytes

/-!
# Reading bytes as UTF-8, whatever they hold

Names need not be valid text. A reading never fails: each maximal piece that could still have
become a character, or a single byte that starts none, is read as one replacement character.

* `lead?` says how a leading byte goes on, `continuation` reads the bytes after it;
* `decodeLossy` reads a whole byte sequence, `lossy` gives it as a string.
-/

namespace FsTrace.Text

/-- What stands for bytes that are no text. -/
def replacement : Char := Char.ofNat 0xFFFD

/-- How a character of several bytes goes on after its first one. -/
structure Lead where
  /-- The bits of the first byte that belong to the code point. -/
  bits : Nat
  /-- How many bytes follow. -/
  count : Nat
  /-- The least value of the next byte. -/
  low : UInt8 := 0x80
  /-- The greatest value of the next byte. -/
  high : UInt8 := 0xBF

/-- The bounds of the second byte leave out overlong forms, surrogates and what lies beyond the
last code point. -/
def lead? (b : UInt8) : Option Lead :=
  if b < 0x80 then some ⟨b.toNat, 0, 0x80, 0xBF⟩
  else if b < 0xC2 then none
  else if b < 0xE0 then some ⟨b.toNat - 0xC0, 1, 0x80, 0xBF⟩
  else if b = 0xE0 then some ⟨0, 2, 0xA0, 0xBF⟩
  else if b = 0xED then some ⟨0xD, 2, 0x80, 0x9F⟩
  else if b < 0xF0 then some ⟨b.toNat - 0xE0, 2, 0x80, 0xBF⟩
  else if b = 0xF0 then some ⟨0, 3, 0x90, 0xBF⟩
  else if b < 0xF4 then some ⟨b.toNat - 0xF0, 3, 0x80, 0xBF⟩
  else if b = 0xF4 then some ⟨4, 3, 0x80, 0x8F⟩
  else none

/-- Reads `count` further bytes of a character, the next one between `low` and `high`. Gives the
number of bytes that fit and, if all did, the code point. -/
def continuation (low high : UInt8) (code : Nat) : Nat → Bytes → Nat × Option Nat
  | 0, _ => (0, some code)
  | _ + 1, [] => (0, none)
  | count + 1, b :: rest =>
    if low ≤ b ∧ b ≤ high then
      let (taken, result) := continuation 0x80 0xBF (code * 64 + (b.toNat - 0x80)) count rest
      (taken + 1, result)
    else (0, none)

/-- The first character of `b :: rest`, and how many bytes of `rest` belong to it. -/
def decodeFirst (b : UInt8) (rest : Bytes) : Char × Nat :=
  match lead? b with
  | none => (replacement, 0)
  | some lead =>
    match continuation lead.low lead.high lead.bits lead.count rest with
    | (taken, some code) => (Char.ofNat code, taken)
    | (taken, none) => (replacement, taken)

/-- The characters of a byte sequence, with replacements for what is no text. -/
def decodeLossy : Bytes → List Char
  | [] => []
  | b :: rest =>
    let first := decodeFirst b rest
    first.1 :: decodeLossy (rest.drop first.2)
termination_by bs => bs.length
decreasing_by simp only [List.length_drop, List.length_cons]; omega

/-- A byte sequence as a string, with replacements for what is no text. -/
def lossy (bs : Bytes) : String := String.ofList (decodeLossy bs)

/-- A byte sequence as a string if all of it is text. -/
def strict? (bs : Bytes) : Option String :=
  String.fromUTF8? ⟨bs.toArray⟩

end FsTrace.Text
