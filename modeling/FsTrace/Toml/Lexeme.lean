import FsTrace.Text.Reading

/-!
# The words of TOML

Readers for the smallest parts of a document. Each takes the characters that are left, and gives
what it read together with what is left after it.

* blanks, line ends and comments: `skipBlanks`, `lineEnd?`, `skipGaps?`;
* strings: `basicString?`, `literalString?` and their forms over several lines;
* bare words: `integer?`, `float?`, `isDatetime`.
-/

namespace FsTrace.Toml

open Text (digit? codePoint? push)

/-- The single quote, which delimits strings without escapes. -/
def quoteMark : Char := '\x27'

/-! ### Blanks and comments -/

/-- A blank within a line. -/
def isBlank (c : Char) : Bool := c = ' ' ∨ c = '\t'

/-- A character that strings and comments may hold. -/
def isTextChar (c : Char) : Bool := c = '\t' ∨ (32 ≤ c.toNat ∧ c.toNat ≠ 127)

/-- What is left after the blanks of a line. -/
def skipBlanks (cs : List Char) : List Char := cs.dropWhile isBlank

/-- What is left after a line end. -/
def newline? : List Char → Option (List Char)
  | '\n' :: rest => some rest
  | '\r' :: '\n' :: rest => some rest
  | _ => none

/-- What is left after the end of a line: blanks, a comment, and a line end or the end of the
document. -/
def lineEnd? (cs : List Char) : Option (List Char) :=
  let cs :=
    match skipBlanks cs with
    | '#' :: rest => rest.dropWhile isTextChar
    | rest => rest
  if cs.isEmpty then some [] else newline? cs

/-- What is left after blanks, line ends and comments. -/
def skipGaps? (inComment : Bool) : List Char → Option (List Char)
  | [] => some []
  | '\n' :: rest => skipGaps? false rest
  | '\r' :: '\n' :: rest => skipGaps? false rest
  | c :: rest =>
    if inComment then if isTextChar c then skipGaps? true rest else none
    else if isBlank c then skipGaps? false rest
    else if c = '#' then skipGaps? true rest
    else some (c :: rest)

/-! ### Digits -/

/-- The value of digits, among which single underscores may stand. Once the value has reached
`enough`, the digits that follow do not change it. -/
def digitsFrom? (base enough value : Nat) (afterDigit : Bool) : List Char → Option Nat
  | [] => if afterDigit then some value else none
  | '_' :: rest => if afterDigit then digitsFrom? base enough value false rest else none
  | c :: rest => (digit? base c).bind fun d =>
    digitsFrom? base enough (if value < enough then value * base + d else value) true rest

/-- The value of a whole run of digits, as far as it has not reached `enough`. -/
def digits? (base enough : Nat) (cs : List Char) : Option Nat := digitsFrom? base enough 0 false cs

/-! ### Strings -/

/-- The character of a short escape. -/
def shortEscape? : Char → Option Char
  | 'b' => some '\x08'
  | 'e' => some '\x1b'
  | 't' => some '\t'
  | 'n' => some '\n'
  | 'f' => some '\x0c'
  | 'r' => some '\r'
  | '"' => some '"'
  | '\\' => some '\\'
  | _ => none

/-- The rest of a string between double quotes. -/
def basicString? : List Char → Option (List Char × List Char)
  | [] => none
  | '"' :: rest => some ([], rest)
  | '\\' :: 'x' :: a :: b :: rest => do
    return push (← codePoint? [a, b]) (← basicString? rest)
  | '\\' :: 'u' :: a :: b :: c :: d :: rest => do
    return push (← codePoint? [a, b, c, d]) (← basicString? rest)
  | '\\' :: 'U' :: a :: b :: c :: d :: e :: f :: g :: h :: rest => do
    return push (← codePoint? [a, b, c, d, e, f, g, h]) (← basicString? rest)
  | '\\' :: c :: rest => do return push (← shortEscape? c) (← basicString? rest)
  | c :: rest =>
    if isTextChar c ∧ c ≠ '\\' then (basicString? rest).map (push c) else none

/-- The rest of a string between single quotes. -/
def literalString? (cs : List Char) : Option (List Char × List Char) :=
  let (text, rest) := cs.span fun c => isTextChar c && c != quoteMark
  match rest with
  | '\x27' :: rest => some (text, rest)
  | _ => none

/-- The rest of a string between three double quotes. Line ends are kept as they are written. While
`joining` holds, blanks and line ends are left out: a backslash at the end of a line joins it to
the next text. -/
def basicLines? (joining : Bool) : List Char → Option (List Char × List Char)
  | [] => none
  | '"' :: '"' :: '"' :: '"' :: '"' :: rest => some (['"', '"'], rest)
  | '"' :: '"' :: '"' :: '"' :: rest => some (['"'], rest)
  | '"' :: '"' :: '"' :: rest => some ([], rest)
  | '\\' :: 'x' :: a :: b :: rest => do
    return push (← codePoint? [a, b]) (← basicLines? false rest)
  | '\\' :: 'u' :: a :: b :: c :: d :: rest => do
    return push (← codePoint? [a, b, c, d]) (← basicLines? false rest)
  | '\\' :: 'U' :: a :: b :: c :: d :: e :: f :: g :: h :: rest => do
    return push (← codePoint? [a, b, c, d, e, f, g, h]) (← basicLines? false rest)
  | '\r' :: '\n' :: rest =>
    if joining then basicLines? true rest
    else (basicLines? false rest).map fun read => push '\r' (push '\n' read)
  | '\n' :: rest =>
    if joining then basicLines? true rest else (basicLines? false rest).map (push '\n')
  | '\\' :: c :: rest =>
    if (newline? (skipBlanks (c :: rest))).isSome then basicLines? true (c :: rest)
    else do return push (← shortEscape? c) (← basicLines? false rest)
  | c :: rest =>
    if joining && isBlank c then basicLines? true rest
    else if isTextChar c ∧ c ≠ '\\' then (basicLines? false rest).map (push c)
    else none

/-- The rest of a string between three single quotes. Line ends are kept as they are written. -/
def literalLines? : List Char → Option (List Char × List Char)
  | [] => none
  | '\x27' :: '\x27' :: '\x27' :: '\x27' :: '\x27' :: rest => some ([quoteMark, quoteMark], rest)
  | '\x27' :: '\x27' :: '\x27' :: '\x27' :: rest => some ([quoteMark], rest)
  | '\x27' :: '\x27' :: '\x27' :: rest => some ([], rest)
  | '\r' :: '\n' :: rest =>
    (literalLines? rest).map fun read => push '\r' (push '\n' read)
  | '\n' :: rest => (literalLines? rest).map (push '\n')
  | c :: rest => if isTextChar c then (literalLines? rest).map (push c) else none

/-- What is left after a line end that directly follows the opening of a string over several
lines. -/
def skipFirstNewline (cs : List Char) : List Char := (newline? cs).getD cs

/-! ### Bare words -/

/-- A character of a number, a date or a truth value. -/
def isWordChar (c : Char) : Bool := c.isAlphanum || "+-._:".toList.contains c

/-- Splits a sign off. -/
def splitSign : List Char → Bool × List Char
  | '-' :: rest => (true, rest)
  | '+' :: rest => (false, rest)
  | cs => (false, cs)

/-- The magnitude from which on integers are not told apart: none of them has `128` bits. -/
def enoughInteger : Nat := 1 <<< 128

/-- The value of digits without a leading zero. -/
def decimal? : List Char → Option Nat
  | ['0'] => some 0
  | '0' :: _ => none
  | cs => digits? 10 enoughInteger cs

/-- The value of a word that is an integer. One of more than `128` bits is read as some other such
one. -/
def integer? : List Char → Option Int
  | '0' :: 'x' :: cs => (digits? 16 enoughInteger cs).map Int.ofNat
  | '0' :: 'o' :: cs => (digits? 8 enoughInteger cs).map Int.ofNat
  | '0' :: 'b' :: cs => (digits? 2 enoughInteger cs).map Int.ofNat
  | cs =>
    let (negative, cs) := splitSign cs
    (decimal? cs).map fun n => if negative then -(n : Int) else n

/-- The power of ten from which on further digits of an exponent are not looked at. -/
def enoughExponent : Nat := 65536

/-- The least magnitude that no float of `64` bits is near enough to: the largest of them is half of
its last place below. -/
def floatLimit : Nat := (1 <<< 1024) - (1 <<< 970)

/-- The number of digits of `floatLimit`. -/
def floatLimitDigits : Nat := 309

/-- Whether a float can come near enough to a number, which is given by the digits in front of the
point, those behind it, and the power of ten to multiply it by. -/
def isFinite (whole fraction : List Nat) (exponent : Int) : Bool :=
  let digits := (whole ++ fraction).dropWhile (· = 0)
  let leadingZeros := (whole ++ fraction).length - digits.length
  let wholeDigits : Int := whole.length - leadingZeros + exponent
  digits.isEmpty || wholeDigits < floatLimitDigits ||
    wholeDigits = floatLimitDigits &&
      ((digits ++ List.replicate floatLimitDigits 0).take floatLimitDigits).foldl
        (fun n d => n * 10 + d) 0 < floatLimit

/-- Whether a word that is a float has a value that a float can come near to; `none` if the word is
no float. A float is a decimal integer with a fraction, an exponent, or both, or one of the special
values. -/
def float? (cs : List Char) : Option Bool :=
  let (_, cs) := splitSign cs
  if cs = "inf".toList ∨ cs = "nan".toList then some true
  else
    let (mantissa, exponent) := cs.span fun c => c ≠ 'e' ∧ c ≠ 'E'
    let (whole, fraction) := mantissa.span (· ≠ '.')
    if exponent.isEmpty ∧ fraction.isEmpty then none
    else do
      let _ ← decimal? whole
      let _ ← if fraction.isEmpty then some 0 else digits? 10 1 (fraction.drop 1)
      let (negative, power) := splitSign (exponent.drop 1)
      let e ← if exponent.isEmpty then some 0 else digits? 10 enoughExponent power
      return isFinite (whole.filterMap (digit? 10)) (fraction.filterMap (digit? 10))
        (if negative then -(e : Int) else e)

/-- A number of exactly `count` digits, and what follows it. -/
def fixedDigits? (count : Nat) (cs : List Char) : Option (Nat × List Char) := do
  let ds ← (cs.take count).mapM (digit? 10)
  if ds.length = count then some (ds.foldl (fun n d => n * 10 + d) 0, cs.drop count) else none

/-- The number of days of a month. -/
def daysIn (year month : Nat) : Nat :=
  if month = 2 then if year % 4 = 0 ∧ (year % 100 ≠ 0 ∨ year % 400 = 0) then 29 else 28
  else if month = 4 ∨ month = 6 ∨ month = 9 ∨ month = 11 then 30
  else 31

/-- What is left after a character that is expected. -/
def expect? (c : Char) : List Char → Option (List Char)
  | d :: rest => if d = c then some rest else none
  | [] => none

/-- What is left after a date. -/
def date? (cs : List Char) : Option (List Char) := do
  let (year, cs) ← fixedDigits? 4 cs
  let cs ← expect? '-' cs
  let (month, cs) ← fixedDigits? 2 cs
  let cs ← expect? '-' cs
  let (day, cs) ← fixedDigits? 2 cs
  if 1 ≤ month ∧ month ≤ 12 ∧ 1 ≤ day ∧ day ≤ daysIn year month then some cs else none

/-- What is left after the hours and minutes of a time or of an offset. -/
def hoursMinutes? (cs : List Char) : Option (List Char) := do
  let (hour, cs) ← fixedDigits? 2 cs
  let cs ← expect? ':' cs
  let (minute, cs) ← fixedDigits? 2 cs
  if hour ≤ 23 ∧ minute ≤ 59 then some cs else none

/-- What is left after the seconds of a time of day, and their fraction if there is one. -/
def seconds? (cs : List Char) : Option (List Char) := do
  let (second, cs) ← fixedDigits? 2 cs
  if second > 60 then none
  match cs with
  | '.' :: cs =>
    let (fraction, cs) := cs.span Char.isDigit
    if fraction.isEmpty then none else some cs
  | cs => some cs

/-- What is left after a time of day, which may lack its seconds. -/
def time? (cs : List Char) : Option (List Char) := do
  match ← hoursMinutes? cs with
  | ':' :: cs => seconds? cs
  | cs => some cs

/-- Whether this is nothing, or an offset from universal time. -/
def isOffset : List Char → Bool
  | [] => true
  | ['Z'] | ['z'] => true
  | '+' :: cs | '-' :: cs => hoursMinutes? cs == some []
  | _ => false

/-- Whether a word is a date, a time, or both with or without an offset. -/
def isDatetime (cs : List Char) : Bool :=
  match date? cs with
  | some [] => true
  | some (c :: rest) =>
    (c = 'T' || c = 't' || c = ' ') && (time? rest).any isOffset
  | none => time? cs == some []

end FsTrace.Toml
