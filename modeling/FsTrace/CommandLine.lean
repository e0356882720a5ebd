import FsTrace.Config.File
import FsTrace.Record
import FsTrace.Simulation

/-!
# The command line

`fsprobe [options] simulate [options]`: options of the first group may stand before or after the
command. Arguments are read from left to right, and the first one that is wrong, or asks for help,
ends the reading. A value that is an argument of its own waits, though: it is looked at when the
next option of the same part is read, or at the end. So the last value before a command is looked
at after all that follows the command.

* `Opt`, one option, and `Given`, the options that were given for one part of the command line;
* `CommandLine.parse` reads the arguments: a `Command`, or a `Stop` before there is one;
* `Command.run` performs it, and `CommandResult` is what comes out.
-/

namespace FsTrace

/-! ### Options -/

/-- An option. -/
inductive Opt
  | help
  | version
  | verbose
  | quiet
  | config
  | resolutionMode
  | noFiltering
  | noRecursive
  | noFollow
  | jobs
  | operations
  | depth
  | breadth
  | files
  | nameLength
  | format
  deriving DecidableEq

namespace Opt

/-- The long name, after two hyphens. -/
def long : Opt → String
  | help => "help"
  | version => "version"
  | verbose => "verbose"
  | quiet => "quiet"
  | config => "config"
  | resolutionMode => "resolution-mode"
  | noFiltering => "no-filtering"
  | noRecursive => "no-recursive"
  | noFollow => "no-follow"
  | jobs => "jobs"
  | operations => "operations"
  | depth => "depth"
  | breadth => "breadth"
  | files => "files"
  | nameLength => "name-length"
  | format => "format"

/-- The short name, after one hyphen. -/
def short? : Opt → Option Char
  | help => some 'h'
  | version => some 'V'
  | verbose => some 'v'
  | quiet => some 'q'
  | config => some 'c'
  | jobs => some 'j'
  | operations => some 'o'
  | _ => none

/-- Whether a value follows the option. -/
def takesValue : Opt → Bool
  | help | version | verbose | quiet | noFiltering | noRecursive | noFollow => false
  | _ => true

/-- The options that may stand before the command. -/
def common : List Opt := [help, version, verbose, quiet, config]

/-- The options that may stand after the command. -/
def simulate : List Opt :=
  [help, verbose, quiet, config, resolutionMode, noFiltering, noRecursive, noFollow, jobs,
    operations, depth, breadth, files, nameLength, format]

end Opt

/-- Why arguments are not understood. -/
inductive UsageError
  | unknownOption (text : String)
  | missingValue (option : Opt)
  | unexpectedValue (option : Opt)
  | invalidValue (option : Opt) (value : String)
  | repeated (option : Opt)
  | conflict (first second : Opt)
  | unexpectedArgument (text : String)
  | unknownCommand (text : String)
  | missingCommand
  deriving DecidableEq

/-- The wording of an error. -/
def UsageError.message : UsageError → String
  | unknownOption text => "error: unexpected argument '" ++ text ++ "' found"
  | missingValue option => "error: a value is required for '--" ++ option.long ++ "'"
  | unexpectedValue option => "error: no value is expected for '--" ++ option.long ++ "'"
  | invalidValue option value =>
    "error: invalid value '" ++ value ++ "' for '--" ++ option.long ++ "'"
  | repeated option => "error: '--" ++ option.long ++ "' cannot be used multiple times"
  | conflict first second =>
    "error: '--" ++ first.long ++ "' cannot be used with '--" ++ second.long ++ "'"
  | unexpectedArgument text => "error: unexpected argument '" ++ text ++ "' found"
  | unknownCommand text => "error: unrecognized subcommand '" ++ text ++ "'"
  | missingCommand => "error: a subcommand is required"

/-- What ends the reading of arguments before there is a command. -/
inductive Stop
  | help
  | version
  | usage (error : UsageError)
  deriving DecidableEq

/-- How often an option is counted at most. -/
def maxCount : Nat := 255

/-- The options given for one part of the command line. -/
structure Given where
  /-- The option whose value was read last, as an argument of its own, and is not yet looked at. -/
  waiting : Option (Opt × String) := none
  verbose : Nat := 0
  quiet : Nat := 0
  config : Option String := none
  resolutionMode : Option ResolutionMode := none
  noFiltering : Bool := false
  noRecursive : Bool := false
  noFollow : Bool := false
  jobs : Option Nat := none
  operations : Option Nat := none
  depth : Option Nat := none
  breadth : Option Nat := none
  files : Option Nat := none
  nameLength : Option Nat := none
  format : Option Format := none

/-- Reads a size: decimal digits, after a plus sign if there is one. -/
def readSizeText? (text : String) : Option Nat :=
  let digits :=
    match text.toList with
    | '+' :: digits => digits
    | digits => digits
  if digits.isEmpty || !digits.all Char.isDigit then none
  else
    let n := digits.foldl
      (fun n c => if n ≤ maxSize then n * 10 + (c.toNat - '0'.toNat) else n) 0
    if n ≤ maxSize then some n else none

namespace Given

/-- Sets what was not set before, if the text can be read. -/
def once {α : Type} (option : Opt) (old : Option α) (text : String) (read : Option α) :
    Except Stop (Option α) :=
  if old.isSome then .error (.usage (.repeated option))
  else
    match read with
    | some value => .ok (some value)
    | none => .error (.usage (.invalidValue option text))

/-- Sets a switch that was not set before. -/
def switch (option : Opt) (old : Bool) : Except Stop Bool :=
  if old then .error (.usage (.repeated option)) else .ok true

/-- Looks at an option, with the text of its value if it has one. -/
def set (g : Given) (option : Opt) (text : String) : Except Stop Given := do
  match option with
  | .help => throw .help
  | .version => throw .version
  | .verbose => return { g with verbose := min (g.verbose + 1) maxCount }
  | .quiet => return { g with quiet := min (g.quiet + 1) maxCount }
  | .config =>
    let path := if text.isEmpty then none else some text
    return { g with config := ← once option g.config text path }
  | .resolutionMode =>
    let mode := ResolutionMode.ofName? text
    return { g with resolutionMode := ← once option g.resolutionMode text mode }
  | .noFiltering => return { g with noFiltering := ← switch option g.noFiltering }
  | .noRecursive => return { g with noRecursive := ← switch option g.noRecursive }
  | .noFollow => return { g with noFollow := ← switch option g.noFollow }
  | .jobs => return { g with jobs := ← once option g.jobs text (readSizeText? text) }
  | .operations =>
    return { g with operations := ← once option g.operations text (readSizeText? text) }
  | .depth => return { g with depth := ← once option g.depth text (readSizeText? text) }
  | .breadth => return { g with breadth := ← once option g.breadth text (readSizeText? text) }
  | .files => return { g with files := ← once option g.files text (readSizeText? text) }
  | .nameLength =>
    return { g with nameLength := ← once option g.nameLength text (readSizeText? text) }
  | .format => return { g with format := ← once option g.format text (Format.ofName? text) }

/-- Looks at the value that waits, if there is one. -/
def settle (g : Given) : Except Stop Given :=
  match g.waiting with
  | none => .ok g
  | some (option, text) => { g with waiting := none }.set option text

/-- Notes an option, with the text of its value if it has one, after the value that waits. -/
def add (g : Given) (option : Opt) (text : String) : Except Stop Given := do
  (← g.settle).set option text

/-- Lets the next argument wait as the value of an option. It must not look like an option. -/
def addNext (g : Given) (option : Opt) : Option String → Except Stop Given
  | none => .error (.usage (.missingValue option))
  | some text => do
    let g ← g.settle
    if text.startsWith "-" && text != "-" then throw (.usage (.missingValue option))
    return { g with waiting := some (option, text) }

/-- Notes a long option. The value may follow after an equals sign, or as the next argument; gives
whether that was used up. -/
def addLong (g : Given) (known : List Opt) (text : List Char) (next : Option String) :
    Except Stop (Given × Bool) := do
  let (name, value) := text.span (· ≠ '=')
  match known.find? (·.long == String.ofList name) with
  | none => throw (.usage (.unknownOption ("--" ++ String.ofList text)))
  | some option =>
    match value, option.takesValue with
    | [], false => return (← g.add option "", false)
    | [], true => return (← g.addNext option next, true)
    | _ :: value, true => return (← g.add option (String.ofList value), false)
    | _ :: _, false => throw (.usage (.unexpectedValue option))

/-- Notes short options that share a hyphen. The last one may have its value attached, or take the
next argument; gives whether that was used up. -/
def addShort (known : List Opt) (next : Option String) (g : Given) :
    List Char → Except Stop (Given × Bool)
  | [] => .ok (g, false)
  | c :: rest =>
    match known.find? (·.short? == some c) with
    | none => .error (.usage (.unknownOption ("-" ++ String.singleton c)))
    | some option =>
      if option.takesValue then do
        match rest with
        | [] => return (← g.addNext option next, true)
        | '=' :: value => return (← g.add option (String.ofList value), false)
        | value => return (← g.add option (String.ofList value), false)
      else do addShort known next (← g.add option "") rest

/-- Notes the options at the front of the arguments, and gives what is left. -/
def addAll (known : List Opt) (g : Given) (args : List String) :
    Except Stop (Given × List String) :=
  match args with
  | [] => .ok (g, [])
  | arg :: rest =>
    match arg.toList with
    | ['-', '-'] =>
      match rest with
      | [] => .ok (g, [])
      | text :: _ => .error (.usage (.unexpectedArgument text))
    | '-' :: '-' :: text =>
      match g.addLong known text rest.head? with
      | .error stop => .error stop
      | .ok (g, usedNext) => addAll known g (if usedNext then rest.drop 1 else rest)
    | '-' :: c :: text =>
      match addShort known rest.head? g (c :: text) with
      | .error stop => .error stop
      | .ok (g, usedNext) => addAll known g (if usedNext then rest.drop 1 else rest)
    | _ => .ok (g, arg :: rest)
termination_by args.length
decreasing_by
  all_goals
    split <;> simp only [List.length_drop, List.length_cons] <;> omega

/-- Refuses options that exclude each other. -/
def check (g : Given) : Except Stop Unit :=
  if g.verbose > 0 ∧ g.quiet > 0 then .error (.usage (.conflict .verbose .quiet)) else .ok ()

end Given

/-! ### Commands -/

/-- A simulation as it was asked for. -/
structure Command where
  config : Option String
  /-- How much is logged: errors from `1` on, warnings from `2` on. -/
  verbosity : Int
  options : SimulationOptions
  format : Format

namespace CommandLine

/-- What is logged unless asked otherwise. -/
def defaultVerbosity : Int := 2

/-- The command that options before and after its name make up. Those after it come first. -/
def command (before after : Given) : Command :=
  let defaults : SimulationOptions := {}
  let verbose := if after.verbose > 0 then after.verbose else before.verbose
  let quiet := if after.quiet > 0 then after.quiet else before.quiet
  { config := after.config.or before.config
    verbosity := defaultVerbosity + verbose - quiet
    format := after.format.getD .table
    options :=
      { resolutionMode := after.resolutionMode
        noFiltering := after.noFiltering
        noRecursive := after.noRecursive
        noFollow := after.noFollow
        jobs := after.jobs.getD defaults.jobs
        operations := after.operations.getD defaults.operations
        shape :=
          { depth := after.depth.getD defaults.shape.depth
            breadth := after.breadth.getD defaults.shape.breadth
            files := after.files.getD defaults.shape.files
            nameLength := after.nameLength.getD defaults.shape.nameLength } } }

/-- Reads the arguments. -/
def parse (args : List String) : Except Stop Command := do
  let (before, rest) ← Given.addAll Opt.common {} args
  match rest with
  | [] => throw (.usage .missingCommand)
  | "simulate" :: rest =>
    let (after, rest) ← Given.addAll Opt.simulate {} rest
    if let text :: _ := rest then throw (.usage (.unexpectedArgument text))
    let after ← after.settle
    after.check
    let before ← before.settle
    before.check
    return command before after
  | "help" :: names =>
    match names with
    | [] | ["simulate"] | ["help"] => throw .help
    | name :: _ => throw (.usage (.unknownCommand name))
  | word :: _ => throw (.usage (.unknownCommand word))

/-- The name and the version of the program. -/
def versionText : String := "fsprobe 0.1.0\n"

end CommandLine

/-! ### Results -/

/-- How grave a log line is. -/
inductive Severity
  | error
  | warning
  deriving DecidableEq

namespace Severity

/-- The least verbosity at which lines of this severity are shown. -/
def threshold : Severity → Int
  | error => 1
  | warning => 2

/-- The mark of a log line. -/
def mark : Severity → String
  | error => "[ERROR]"
  | warning => "[WARN]"

end Severity

/-- A line of the log. -/
structure LogLine where
  severity : Severity
  text : String

/-- The line as it is shown. -/
def LogLine.show (l : LogLine) : String := l.severity.mark ++ " " ++ l.text

/-- What a command gives. -/
inductive CommandResult
  | stopped (stop : Stop)
  | failed (log : List LogLine)
  /-- The lines of the records follow the log, and the statistics follow them. -/
  | finished (log : List LogLine) (records : List String) (statistics : Statistics)

/-- The exit code. -/
def CommandResult.code : CommandResult → UInt32
  | stopped .help | stopped .version => 0
  | stopped (.usage _) => 2
  | failed _ => 1
  | finished .. => 0

/-- What a command finds around it. -/
structure Machine where
  processors : Nat
  pid : UInt32
  chance : Chance
  /-- The time of each step. -/
  clock : Nat → UInt64

namespace Command

/-- The log lines that are shown. -/
def log (c : Command) (severity : Severity) (texts : List String) : List LogLine :=
  if severity.threshold ≤ c.verbosity then texts.map (⟨severity, ·⟩) else []

/-- Runs a simulation in which all workers take turns. -/
def simulate (c : Command) (m : Machine) (config : Config) :
    Except SimulationError (List Emission × Simulation) := do
  let s ← Simulation.start config c.options m.processors m.pid
    ((m.chance.branch 0).draws c.options.shape)
  let schedule := s.turns.zipIdx.map fun (worker, n) =>
    (Simulation.moment (m.chance.branch 1) c.options.shape.nameLength (m.clock n) n, worker)
  return s.run schedule

/-- What is logged of an error. -/
def logError (c : Command) (e : SimulationError) : List LogLine :=
  c.log .error ["error occurred in simulate: " ++ e.report]

/-- What is logged of a configuration, once a probe is made for it. -/
def logConfig (c : Command) (config : Config) : List LogLine :=
  c.log .warning (config.enabledKinds.2.map Warning.message)

/-- Performs a command, given what looking for its configuration file gave. -/
def run (c : Command) (m : Machine) (file : String → FileOutcome) : CommandResult :=
  match Config.load (c.config.map fun path => (path, file path)) with
  | .error cause => .failed (c.logError (.load cause))
  | .ok config =>
    let config := c.options.apply config
    match c.simulate m config with
    | .error (.shape cause) => .failed (c.logConfig config ++ c.logError (.shape cause))
    | .error e => .failed (c.logError e)
    | .ok (emissions, s) =>
      let lines := emissions.map c.format.line
      .finished (c.logConfig config) (lines.filter (! ·.isEmpty)) s.probe.statistics

end Command

/-- Reads the arguments and performs what they ask for. -/
def CommandLine.run (args : List String) (m : Machine) (file : String → FileOutcome) :
    CommandResult :=
  match parse args with
  | .error stop => .stopped stop
  | .ok command => command.run m file

end FsTrace
