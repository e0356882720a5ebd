import FsTrace.CommandLine

/-!
# The program

Reads the arguments, the configuration file and the clock, runs the command, and prints what comes
out.
-/

namespace FsTrace.Program

/-- The text of the command's help. -/
def helpText : String :=
  "Filesystem activity probe core: bounded dentry path resolution, entry/return correlation and "
    ++ "subtree filtering\n\nUsage: fsprobe [OPTIONS] simulate [OPTIONS]\n"

/-- Why a file could not be read, in the system's words. -/
def readFailure : IO.Error → FileOutcome
  | .noFileOrDirectory .. => .absent
  | .inappropriateType _ code details | .permissionDenied _ code details
  | .invalidArgument _ code details | .resourceExhausted _ code details =>
    .failed s!"{details} (os error {code})"
  | .otherError code details => .failed s!"{details} (os error {code})"
  | error => .failed (toString error)

/-- Looks for a file. -/
def readFile (path : String) : IO FileOutcome := do
  try
    let bytes ← IO.FS.readBinFile path
    return .contents bytes.toList
  catch error => return readFailure error

/-- Two digits of a time of day. -/
def twoDigits (n : Nat) : String := if n < 10 then s!"0{n}" else toString n

/-- The time of day, in universal time. -/
def timeOfDay (seconds : Nat) : String :=
  twoDigits (seconds / 3600 % 24) ++ ":" ++ twoDigits (seconds / 60 % 60) ++ ":"
    ++ twoDigits (seconds % 60)

/-- Prints the log: errors to the error output, everything else to the output. -/
def printLog (time : String) (log : List LogLine) : IO Unit := do
  for line in log do
    let text := time ++ " " ++ line.show
    match line.severity with
    | .error => IO.eprintln text
    | .warning => IO.println text

/-- The number of processors, as the system lists them. -/
def countProcessors : IO Nat := do
  try
    let text ← IO.FS.readFile "/proc/cpuinfo"
    return max 1 ((text.splitOn "\n").countP (·.startsWith "processor"))
  catch _ => return 1

/-- Runs the program. -/
def run (args : List String) : IO UInt32 := do
  let file ←
    match CommandLine.parse args with
    | .ok { config := some path, .. } => readFile path
    | _ => pure .absent
  let seed ← IO.rand 0 0x7FFFFFFFFFFFFFFF
  let pid ← IO.rand 1 0x3FFFFF
  let start ← IO.monoNanosNow
  let time := timeOfDay (start / 1000000000)
  let machine : Machine :=
    { processors := ← countProcessors, pid := pid.toUInt32, chance := ⟨seed.toUInt64⟩
      clock := fun step => (1000 * step).toUInt64 }
  let result := CommandLine.run args machine fun _ => file
  match result with
  | .stopped .help => IO.print helpText
  | .stopped .version => IO.print CommandLine.versionText
  | .stopped (.usage error) => IO.eprintln error.message
  | .failed log => printLog time log
  | .finished log records statistics =>
    printLog time log
    for record in records do IO.print record
    IO.println statistics.json.text
  return result.code

end FsTrace.Program

/-- Runs the program. -/
def main (args : List String) : IO UInt32 := FsTrace.Program.run args
