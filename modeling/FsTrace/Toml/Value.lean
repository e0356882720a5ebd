/-!
# TOML values

* `Value`, where a table keeps its keys in the order in which they were written, and what a value
  is read as: `boolean?`, `integer?`, `string?`, `strings?`; `isRepresentable` tells whether its
  numbers are small enough to be read at all;
* `Entries`: a table while its document is read, with `insertKey?`, `openTable?` and
  `openTables?`. What can still be added to a table depends on how it came about (`Origin`), so
  that no key and no table is defined twice.
-/

namespace FsTrace.Toml

/-- A value of a document. Of a float, it is only kept whether a float of `64` bits can come near
to it; of dates, nothing is kept. -/
inductive Value
  | string (value : String)
  | integer (value : Int)
  | float (isFinite : Bool)
  | boolean (value : Bool)
  | datetime
  | array (items : List Value)
  | table (fields : List (String × Value))

namespace Value

/-- The truth value, if this is one. -/
def boolean? : Value → Option Bool
  | boolean b => some b
  | _ => none

/-- The integer, if this is one. -/
def integer? : Value → Option Int
  | integer n => some n
  | _ => none

/-- The string, if this is one. -/
def string? : Value → Option String
  | string s => some s
  | _ => none

/-- The strings, if this is an array of nothing else. -/
def strings? : Value → Option (List String)
  | array items => items.mapM string?
  | _ => none

/-- The smallest integer of `128` bits with a sign. -/
def minInteger : Int := -170141183460469231731687303715884105728

/-- The largest integer of `128` bits without a sign. -/
def maxInteger : Int := 340282366920938463463374607431768211455

mutual

/-- Whether each integer in a value has `128` bits, with or without a sign, and each float is not
too large. -/
def isRepresentable : Value → Bool
  | integer n => minInteger ≤ n ∧ n ≤ maxInteger
  | float isFinite => isFinite
  | array items => areRepresentable items
  | table fields => fieldsRepresentable fields
  | string _ | boolean _ | datetime => true

/-- Whether each of some values is representable. -/
def areRepresentable : List Value → Bool
  | [] => true
  | item :: rest => item.isRepresentable && areRepresentable rest

/-- Whether the values of some keys are representable. -/
def fieldsRepresentable : List (String × Value) → Bool
  | [] => true
  | (_, value) :: rest => value.isRepresentable && fieldsRepresentable rest

end

end Value

/-- How a table came about. -/
inductive Origin
  /-- By its own header. -/
  | header
  /-- As a part of the header of another table. -/
  | implied
  /-- By a dotted key. -/
  | dotted
  deriving DecidableEq

/-- What a key stands for while a document is read. -/
inductive Slot
  /-- A value, which is complete. -/
  | value (value : Value)
  | table (origin : Origin) (fields : List (String × Slot))
  /-- The tables of one repeated header, newest first. -/
  | tables (items : List (List (String × Slot)))

/-- The keys of a table while its document is read. -/
abbrev Entries := List (String × Slot)

mutual

/-- The value that a key stands for in the end. -/
def Slot.toValue : Slot → Value
  | .value value => value
  | .table _ fields => .table (fieldsToValues fields)
  | .tables items => .array (itemsToValues items).reverse

/-- The values of the keys of a table. -/
def fieldsToValues : List (String × Slot) → List (String × Value)
  | [] => []
  | (key, slot) :: rest => (key, slot.toValue) :: fieldsToValues rest

/-- The values of repeated tables. -/
def itemsToValues : List (List (String × Slot)) → List Value
  | [] => []
  | fields :: rest => .table (fieldsToValues fields) :: itemsToValues rest

end

namespace Entries

/-- Puts a slot in the place of a key, or adds it. -/
def set (entries : Entries) (key : String) (slot : Slot) : Entries :=
  if entries.any (·.1 == key) then
    entries.map fun entry => if entry.1 == key then (key, slot) else entry
  else entries ++ [(key, slot)]

/-- Changes the table at the end of a path, and gives how that table came about to the change.
Tables that are missing are added: by a dotted key if `dotted` holds, else as part of a header. A
dotted key leads into no table that has a header of its own, but into the newest of the tables of a
repeated header. -/
def alter? (dotted : Bool) (change : Origin → Entries → Option Entries) (origin : Origin)
    (entries : Entries) : List String → Option Entries
  | [] => change origin entries
  | key :: path =>
    match entries.lookup key with
    | none => do
      let origin := if dotted then .dotted else .implied
      let inner ← alter? dotted change origin [] path
      return entries.set key (.table origin inner)
    | some (.table origin inner) =>
      if dotted && origin == .header then none
      else do
        let inner ← alter? dotted change origin inner path
        return entries.set key (.table origin inner)
    | some (.tables (newest :: older)) => do
      let newest ← alter? dotted change .header newest path
      return entries.set key (.tables (newest :: older))
    | some (.tables []) | some (.value _) => none

/-- Adds a key to a table, in which `path` leads through dotted tables. -/
def insertKey? (path : List String) (key : String) (value : Value) (origin : Origin)
    (entries : Entries) : Option Entries :=
  alter? true (fun origin entries =>
    if (origin == .dotted) == path.isEmpty then none
    else if (entries.lookup key).isSome then none
    else some (entries.set key (.value value))) origin entries path

/-- Adds a table for a header. -/
def openTable? (path : List String) (key : String) (entries : Entries) : Option Entries :=
  alter? false (fun _ entries =>
    match entries.lookup key with
    | none => some (entries.set key (.table .header []))
    | some (.table .implied inner) => some (entries.set key (.table .header inner))
    | some _ => none) .header entries path

/-- Adds one more table for a repeated header. -/
def openTables? (path : List String) (key : String) (entries : Entries) : Option Entries :=
  alter? false (fun _ entries =>
    match entries.lookup key with
    | none => some (entries.set key (.tables [[]]))
    | some (.tables items) => some (entries.set key (.tables ([] :: items)))
    | some _ => none) .header entries path

end Entries

end FsTrace.Toml
