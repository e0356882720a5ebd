import FsTrace.Config
import FsTrace.Text.Lossy
import FsTrace.Toml.Document

/-!
# Configuration files

A configuration is read from a TOML document. What the document does not set keeps its default, and
keys that mean nothing here are skipped, if the numbers in their values can be represented.

* `Config.ofDocument?` reads the fields of a document, each as a value of its type;
* `FileOutcome` is what looking for a file gave, and `Config.load` the configuration it holds.
-/

namespace FsTrace

open Toml (Value)

/-! ### Fields -/

/-- The largest size: that of `64` bits. -/
def maxSize : Nat := 18446744073709551615

/-- A value as a size. -/
def Toml.Value.size? (v : Value) : Option Nat :=
  v.integer?.bind fun n => if 0 ≤ n ∧ n ≤ maxSize then some n.toNat else none

/-- A value as a mode: its name, or its name as the only key of a table, with nothing in it. -/
def ResolutionMode.ofValue? : Value → Option ResolutionMode
  | .string s => ResolutionMode.ofName? s
  | .table [(name, .array [])] | .table [(name, .table [])] => ResolutionMode.ofName? name
  | _ => none

/-- The value of a key, or the default if there is none. -/
def field? {α : Type} (fields : List (String × Value)) (key : String) (default : α)
    (read? : Value → Option α) : Option α :=
  match fields.lookup key with
  | none => some default
  | some value => read? value

/-- Whether the values of all keys but the given ones are representable. -/
def othersRepresentable (fields : List (String × Value)) (keys : List String) : Bool :=
  fields.all fun (key, value) => keys.contains key || value.isRepresentable

/-- A value as capacities: by their names, or as a list in their order, of which nothing behind the
last one is looked at. A date counts as a table without any of the names. -/
def Capacities.ofValue? : Value → Option Capacities
  | .table fields => do
    let default : Capacities := {}
    guard (othersRepresentable fields
      ["pending-calls", "path-fragments", "single-fragments", "inode-filter"])
    return {
      pendingCalls := ← field? fields "pending-calls" default.pendingCalls Value.size?
      pathFragments := ← field? fields "path-fragments" default.pathFragments Value.size?
      singleFragments := ← field? fields "single-fragments" default.singleFragments Value.size?
      inodeFilter := ← field? fields "inode-filter" default.inodeFilter Value.size? }
  | .datetime => some {}
  | .array items => do
    let default : Capacities := {}
    let item (n capacity : Nat) : Option Nat := (items[n]?).elim (some capacity) Value.size?
    return {
      pendingCalls := ← item 0 default.pendingCalls
      pathFragments := ← item 1 default.pathFragments
      singleFragments := ← item 2 default.singleFragments
      inodeFilter := ← item 3 default.inodeFilter }
  | _ => none

namespace Config

/-- Reads the fields of a document. -/
def ofFields? (fields : List (String × Value)) : Option Config := do
  let default : Config := {}
  guard (othersRepresentable fields
    ["resolution-mode", "filtering-enabled", "recursive-watch", "follow-renames", "events",
      "execution-units", "capacities"])
  return {
    resolutionMode :=
      ← field? fields "resolution-mode" default.resolutionMode ResolutionMode.ofValue?
    filteringEnabled := ← field? fields "filtering-enabled" default.filteringEnabled Value.boolean?
    recursiveWatch := ← field? fields "recursive-watch" default.recursiveWatch Value.boolean?
    followRenames := ← field? fields "follow-renames" default.followRenames Value.boolean?
    events := ← field? fields "events" default.events Value.strings?
    executionUnits := ← field? fields "execution-units" default.executionUnits Value.size?
    capacities := ← field? fields "capacities" default.capacities Capacities.ofValue? }

/-- Reads a document. -/
def ofDocument? (text : String) : Option Config := (Toml.parse? text).bind ofFields?

end Config

/-! ### Files -/

/-- What looking for a file gave. -/
inductive FileOutcome
  | absent
  | failed (cause : String)
  | contents (bytes : Bytes)

/-- The configuration of a file, or the default one if no file is named. A file that is named has
to be there. -/
def Config.load : Option (String × FileOutcome) → Except ConfigError Config
  | none => .ok {}
  | some (path, .absent) => .error (.missing path)
  | some (path, .failed cause) => .error (.unreadable path cause)
  | some (path, .contents bytes) =>
    match Text.strict? bytes with
    | none => .error (.unreadable path "stream did not contain valid UTF-8")
    | some text =>
      match ofDocument? text with
      | none => .error (.invalid path "not a configuration in TOML")
      | some config => config.validate.map fun _ => config

end FsTrace
