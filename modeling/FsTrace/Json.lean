import FsTrace.Text.Hex

/-!
# Compact JSON text

Values are written without blanks, the fields of an object in their order.

* `Json` and `Json.render`, which gives the text as characters, `Json.text` as a string;
* `Json.escapeChar` and `Json.quote`: quotes, backslashes and control characters are escaped.
-/

namespace FsTrace

/-- A value to be written; numbers are integers. -/
inductive Json
  | bool (value : Bool)
  | int (value : Int)
  | str (value : String)
  | arr (items : List Json)
  | obj (fields : List (String × Json))

namespace Json

/-- A natural number as a value. -/
def nat (n : Nat) : Json := .int n

/-- A character inside a quoted string. -/
def escapeChar (c : Char) : List Char :=
  if c = '"' then ['\\', '"']
  else if c = '\\' then ['\\', '\\']
  else if c.toNat = 8 then ['\\', 'b']
  else if c.toNat = 12 then ['\\', 'f']
  else if c = '\n' then ['\\', 'n']
  else if c = '\r' then ['\\', 'r']
  else if c = '\t' then ['\\', 't']
  else if c.toNat < 32 then ['\\', 'u', '0', '0'] ++ (Text.hexPadded 2 c.toNat).toList
  else [c]

/-- A quoted string. -/
def quote (s : String) : List Char := ['"'] ++ s.toList.flatMap escapeChar ++ ['"']

/-- An integer in base ten. -/
def decimal : Int → List Char
  | .ofNat n => Nat.toDigits 10 n
  | .negSucc n => '-' :: Nat.toDigits 10 (n + 1)

/-- The items of a list or the fields of an object, with commas between them. -/
def separate : List (List Char) → List Char
  | [] => []
  | [item] => item
  | item :: items => item ++ [','] ++ separate items

mutual

/-- The text of a value. -/
def render : Json → List Char
  | .bool value => (if value then "true" else "false").toList
  | .int value => decimal value
  | .str value => quote value
  | .arr items => ['['] ++ separate (renderItems items) ++ [']']
  | .obj fields => ['\x7b'] ++ separate (renderFields fields) ++ ['\x7d']

/-- The texts of the items of a list. -/
def renderItems : List Json → List (List Char)
  | [] => []
  | item :: items => item.render :: renderItems items

/-- The texts of the fields of an object. -/
def renderFields : List (String × Json) → List (List Char)
  | [] => []
  | (name, value) :: fields => (quote name ++ [':'] ++ value.render) :: renderFields fields

end

/-- The text of a value, as a string. -/
def text (j : Json) : String := String.ofList j.render

end Json

end FsTrace
