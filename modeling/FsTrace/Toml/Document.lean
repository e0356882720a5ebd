import FsTrace.Toml.Lexeme
import FsTrace.Toml.Value

/-!
# Reading TOML documents

`parse?` reads a document line by line: a line assigns a value to a key of the current table, or
makes another table the current one. A document that is no TOML has no value.

* `key?` and `value?` read keys and values, which may nest up to `maxNesting` deep;
* `Reading` is what was read so far, and `Reading.line?` reads one more line.
-/

namespace FsTrace.Toml

/-- How deep values may nest. -/
def maxNesting : Nat := 80

/-- How many parts a key may have. -/
def maxKeyParts : Nat := 80

/-! ### Keys -/

/-- A character of a key without quotes. -/
def isKeyChar (c : Char) : Bool := c.isAlphanum || c = '_' || c = '-'

/-- A key that is one word or one string. -/
def simpleKey? : List Char → Option (String × List Char)
  | '"' :: rest => (basicString? rest).map fun (text, rest) => (String.ofList text, rest)
  | '\x27' :: rest => (literalString? rest).map fun (text, rest) => (String.ofList text, rest)
  | cs =>
    let (word, rest) := cs.span isKeyChar
    if word.isEmpty then none else some (String.ofList word, rest)

/-- The parts of a key after the first one; at most `fuel` of them. -/
def keyTail? : (fuel : Nat) → List Char → Option (List String × List Char)
  | 0, cs => some ([], cs)
  | fuel + 1, cs =>
    match skipBlanks cs with
    | '.' :: rest => do
      let (part, rest) ← simpleKey? (skipBlanks rest)
      let (parts, rest) ← keyTail? fuel rest
      return (part :: parts, rest)
    | rest => some ([], rest)

/-- A key: the tables it leads through, and its last part. -/
structure Key where
  path : List String
  last : String

/-- A key of at most `maxKeyParts` parts with dots between them, and what follows it and its
blanks. -/
def key? (cs : List Char) : Option (Key × List Char) := do
  let (first, rest) ← simpleKey? (skipBlanks cs)
  let (parts, rest) ← keyTail? maxKeyParts rest
  let all := first :: parts
  if all.length > maxKeyParts then none
  return (⟨all.dropLast, all.getLastD first⟩, rest)

/-! ### Values -/

/-- The value of a bare word. -/
def wordValue? (word : List Char) : Option Value :=
  if word = "true".toList then some (.boolean true)
  else if word = "false".toList then some (.boolean false)
  else
    match integer? word with
    | some n => some (.integer n)
    | none =>
      match float? word with
      | some isFinite => some (.float isFinite)
      | none => if isDatetime word then some .datetime else none

/-- A number, a date or a truth value. A date may be followed by a blank and a time. -/
def word? (cs : List Char) : Option (Value × List Char) :=
  let (word, rest) := cs.span isWordChar
  let (word, rest) :=
    match rest with
    | ' ' :: c :: more =>
      if c.isDigit && date? word == some [] then
        let (time, rest) := (c :: more).span isWordChar
        (word ++ [' '] ++ time, rest)
      else (word, rest)
    | rest => (word, rest)
  (wordValue? word).map (·, rest)

/-- A string, given its characters. -/
def stringValue (read : List Char × List Char) : Value × List Char :=
  (.string (String.ofList read.1), read.2)

mutual

/-- A value, inside of at most `depth` others. -/
def value? : (fuel depth : Nat) → List Char → Option (Value × List Char)
  | 0, _, _ => none
  | fuel + 1, depth, cs =>
    match cs with
    | '"' :: '"' :: '"' :: rest =>
      (basicLines? false (skipFirstNewline rest)).map stringValue
    | '"' :: rest => (basicString? rest).map stringValue
    | '\x27' :: '\x27' :: '\x27' :: rest =>
      (literalLines? (skipFirstNewline rest)).map stringValue
    | '\x27' :: rest => (literalString? rest).map stringValue
    | '[' :: rest =>
      if depth = 0 then none
      else do
        let (items, rest) ← items? fuel (depth - 1) rest
        return (.array items, rest)
    | '\x7b' :: rest =>
      if depth = 0 then none
      else do
        let (entries, rest) ← fields? fuel (depth - 1) [] rest
        return (.table (fieldsToValues entries), rest)
    | cs => word? cs

/-- The items of an array up to its closing bracket. -/
def items? : (fuel depth : Nat) → List Char → Option (List Value × List Char)
  | 0, _, _ => none
  | fuel + 1, depth, cs => do
    match ← skipGaps? false cs with
    | ']' :: rest => return ([], rest)
    | cs =>
      let (item, rest) ← value? fuel depth cs
      match ← skipGaps? false rest with
      | ',' :: rest =>
        let (items, rest) ← items? fuel depth rest
        return (item :: items, rest)
      | ']' :: rest => return ([item], rest)
      | _ => none

/-- The fields of a table in braces up to the closing one. Lines may end between any two parts of
a field. -/
def fields? : (fuel depth : Nat) → Entries → List Char → Option (Entries × List Char)
  | 0, _, _, _ => none
  | fuel + 1, depth, entries, cs => do
    match ← skipGaps? false cs with
    | '\x7d' :: rest => return (entries, rest)
    | cs =>
      let (key, rest) ← key? cs
      let rest ← expect? '=' (← skipGaps? false rest)
      let (value, rest) ← value? fuel depth (← skipGaps? false rest)
      let entries ← entries.insertKey? key.path key.last value .header
      match ← skipGaps? false rest with
      | ',' :: rest => fields? fuel depth entries rest
      | '\x7d' :: rest => return (entries, rest)
      | _ => none

end

/-! ### Lines -/

/-- What was read so far: the entries of the document, and the path of the current table. -/
structure Reading where
  entries : Entries := []
  current : List String := []

namespace Reading

/-- Reads a header, after its opening bracket. -/
def header? (r : Reading) (cs : List Char) : Option (Reading × List Char) := do
  let (repeated, cs) :=
    match cs with
    | '[' :: cs => (true, cs)
    | cs => (false, cs)
  let (key, cs) ← key? cs
  let cs ← expect? ']' cs
  let cs ← if repeated then expect? ']' cs else some cs
  let rest ← lineEnd? cs
  let entries ←
    if repeated then r.entries.openTables? key.path key.last
    else r.entries.openTable? key.path key.last
  return (⟨entries, key.path ++ [key.last]⟩, rest)

/-- Reads an assignment to a key of the current table. Not more than `fuel` characters are left, and
no value takes more than two steps for each of them. -/
def assignment? (fuel : Nat) (r : Reading) (cs : List Char) : Option (Reading × List Char) := do
  let (key, rest) ← key? cs
  let rest ← expect? '=' rest
  let rest := skipBlanks rest
  let (value, rest) ← value? (2 * fuel + 2) maxNesting rest
  let rest ← lineEnd? rest
  let entries ← r.entries.alter? false
    (fun origin entries => entries.insertKey? key.path key.last value origin) .header r.current
  return ({ r with entries }, rest)

/-- Reads one line, of not more than `fuel` characters that are left. -/
def line? (fuel : Nat) (r : Reading) (cs : List Char) : Option (Reading × List Char) :=
  match lineEnd? cs with
  | some rest => some (r, rest)
  | none =>
    match skipBlanks cs with
    | '[' :: rest => r.header? rest
    | cs => r.assignment? fuel cs

/-- Reads all of the document, of which not more than `fuel` characters are left. -/
def lines? : (fuel : Nat) → Reading → List Char → Option Reading
  | _, r, [] => some r
  | 0, _, _ :: _ => none
  | fuel + 1, r, cs => do
    let (r, rest) ← r.line? (fuel + 1) cs
    lines? fuel r rest

end Reading

/-- The fields of a document. A mark of the byte order in front of it is skipped. -/
def parse? (text : String) : Option (List (String × Value)) :=
  let cs :=
    match text.toList with
    | c :: rest => if c.toNat = 0xFEFF then rest else c :: rest
    | [] => []
  (Reading.lines? cs.length {} cs).map fun r => fieldsToValues r.entries

end FsTrace.Toml
