import FsTrace.Event.Kind
import FsTrace.Json
import FsTrace.Text.Quoted

/-!
# Configurations

* `ResolutionMode`, `Capacities` and `Config`, with the values that apply by default;
* `Config.validate` refuses tables without room, `Config.enabledKinds` reads the names of kinds and
  warns of those it does not know, `Config.json` is a configuration as written;
* `Modes`: the switches that a configuration sets, fixed once and for all when tracing starts;
* `ConfigError` and `Warning`.
-/

namespace FsTrace

/-- How resolved paths reach the consumer. -/
inductive ResolutionMode
  /-- Their bytes follow the record. -/
  | inlineBuffer
  /-- Every entry is stored once, as a fragment. -/
  | fragmentStore
  /-- Every path is stored whole, under a key. -/
  | singleFragment
  deriving DecidableEq

namespace ResolutionMode

/-- The modes, in the order in which they are listed. -/
def all : List ResolutionMode := [inlineBuffer, fragmentStore, singleFragment]

/-- The name used in configurations. -/
def name : ResolutionMode → String
  | inlineBuffer => "inline-buffer"
  | fragmentStore => "fragment-store"
  | singleFragment => "single-fragment"

/-- The mode of a name. -/
def ofName? (name : String) : Option ResolutionMode := all.find? (·.name == name)

end ResolutionMode

/-- Why there is no configuration. -/
inductive ConfigError
  | missing (path : String)
  | unreadable (path cause : String)
  | invalid (path cause : String)
  | zeroCapacity (table : String)
  deriving DecidableEq

/-- The wording of an error. -/
def ConfigError.message : ConfigError → String
  | missing path => "config file does not exist: `" ++ Text.quoted path ++ "`"
  | unreadable path cause =>
    "i/o error reading config file `" ++ Text.quoted path ++ "`: `" ++ cause ++ "`"
  | invalid path cause =>
    "config file parsing error in `" ++ Text.quoted path ++ "`: `" ++ cause ++ "`"
  | zeroCapacity table => "table capacity must be greater than zero: `" ++ table ++ "`"

/-- Something worth telling that stops nothing. -/
inductive Warning
  | unknownKind (name : String)
  | writeFailed (kind : Kind) (cause : String)
  deriving DecidableEq

/-- The wording of a warning. -/
def Warning.message : Warning → String
  | unknownKind name => "ignoring unknown event kind " ++ Text.quoted name ++ " in configuration"
  | writeFailed kind cause => "failed to write " ++ kind.name ++ " event: " ++ cause

/-- The most entries that each table holds. -/
structure Capacities where
  pendingCalls : Nat := 1000
  pathFragments : Nat := 10000
  singleFragments : Nat := 10000
  inodeFilter : Nat := 10111
  deriving DecidableEq

namespace Capacities

/-- The capacities by name. -/
def fields (c : Capacities) : List (String × Nat) :=
  [("pending-calls", c.pendingCalls), ("path-fragments", c.pathFragments),
    ("single-fragments", c.singleFragments), ("inode-filter", c.inodeFilter)]

/-- Refuses a table without room; the first such table is named. -/
def validate (c : Capacities) : Except ConfigError Unit :=
  match c.fields.find? (·.2 = 0) with
  | some (table, _) => .error (.zeroCapacity table)
  | none => .ok ()

/-- The capacities as written. -/
def json (c : Capacities) : Json := .obj (c.fields.map fun (name, value) => (name, .nat value))

end Capacities

/-- What can be configured. -/
structure Config where
  resolutionMode : ResolutionMode := .inlineBuffer
  filteringEnabled : Bool := true
  recursiveWatch : Bool := true
  followRenames : Bool := true
  /-- The names of the kinds to trace. -/
  events : List String := Kind.all.map Kind.name
  /-- The number of slots of working memory; `0` stands for the number of processors. -/
  executionUnits : Nat := 0
  capacities : Capacities := {}
  deriving DecidableEq

namespace Config

/-- Refuses tables without room. -/
def validate (c : Config) : Except ConfigError Unit := c.capacities.validate

/-- The kinds that a list of names stands for, each one once, and a warning for each name that
stands for none. -/
def readKinds (kinds : List Kind) : List String → List Kind × List Warning
  | [] => (kinds, [])
  | name :: names =>
    match Kind.ofName? name with
    | .ok kind => readKinds (if kind ∈ kinds then kinds else kinds ++ [kind]) names
    | .error _ =>
      let (kinds, warnings) := readKinds kinds names
      (kinds, .unknownKind name :: warnings)

/-- The kinds to trace, and a warning for each name that stands for none. -/
def enabledKinds (c : Config) : List Kind × List Warning := readKinds [] c.events

/-- The number of slots of working memory on a machine with this many processors. -/
def units (c : Config) (processors : Nat) : Nat :=
  if c.executionUnits = 0 then processors else c.executionUnits

/-- The configuration as written. -/
def json (c : Config) : Json :=
  .obj
    [("resolution-mode", .str c.resolutionMode.name),
      ("filtering-enabled", .bool c.filteringEnabled),
      ("recursive-watch", .bool c.recursiveWatch),
      ("follow-renames", .bool c.followRenames),
      ("events", .arr (c.events.map .str)),
      ("execution-units", .nat c.executionUnits),
      ("capacities", c.capacities.json)]

end Config

/-- The switches that are fixed when tracing starts. -/
structure Modes where
  resolution : ResolutionMode
  filtering : Bool
  recursive : Bool
  followRenames : Bool
  events : KindSet
  deriving DecidableEq

namespace Modes

/-- The switches of a configuration. -/
def ofConfig (c : Config) : Modes where
  resolution := c.resolutionMode
  filtering := c.filteringEnabled
  recursive := c.recursiveWatch
  followRenames := c.followRenames
  events := .ofList c.enabledKinds.1

/-- The switches that apply by default. -/
def default : Modes := .ofConfig {}

/-- Whether new directories become watched. -/
def registersNewDirectories (m : Modes) : Bool := m.filtering && m.recursive

/-- Whether renamed entries become watched. -/
def registersRenamedEntries (m : Modes) : Bool := m.filtering && m.followRenames

end Modes

end FsTrace
