import FsTrace.Chance
import FsTrace.Probe
import FsTrace.Tree.Growth

/-!
# Simulated work on a traced tree

Workers perform file-system operations on a grown tree, each call traced by a probe. A call has
three steps: the probe is told of its start, the tree changes, the probe is told of its return.
Steps of different workers may follow each other in any order.

* `Effect` and `Operation`: what a call does; `Worker.plan` turns what was drawn, a `Choice`, into
  an operation;
* `Simulation.start` grows the tree, watches it, and sets the workers up;
* `Simulation.step` takes the next step of one worker, `Simulation.run` those of a schedule.

The entries that a worker makes are its own, so that no two workers remove the same entry. A worker
that should remove an entry and has none makes one instead.
-/

namespace FsTrace

/-! ### Options and errors -/

/-- What can be set for one run, beside the configuration. -/
structure SimulationOptions where
  resolutionMode : Option ResolutionMode := none
  noFiltering : Bool := false
  noRecursive : Bool := false
  noFollow : Bool := false
  /-- The number of workers; `0` stands for the number of execution units. -/
  jobs : Nat := 0
  /-- The number of operations of each worker. -/
  operations : Nat := 200
  shape : TreeShape := {}

/-- The configuration with the options of one run applied to it. -/
def SimulationOptions.apply (o : SimulationOptions) (c : Config) : Config :=
  { c with
    resolutionMode := o.resolutionMode.getD c.resolutionMode
    filteringEnabled := c.filteringEnabled && !o.noFiltering
    recursiveWatch := c.recursiveWatch && !o.noRecursive
    followRenames := c.followRenames && !o.noFollow }

/-- Why a simulation does not start. -/
inductive SimulationError
  | load (cause : ConfigError)
  | config (cause : ConfigError)
  | shape (cause : ShapeError)
  deriving DecidableEq

namespace SimulationError

/-- What lies behind an error of the configuration. -/
def configCauses (e : ConfigError) : List String :=
  e.message :: match e with
    | .unreadable _ cause | .invalid _ cause => [cause]
    | .missing _ | .zeroCapacity _ => []

/-- The error, followed by what caused it, what caused that, and so on. -/
def chain : SimulationError → List String
  | load cause => "failed to load probe configuration" :: configCauses cause
  | config cause => configCauses cause
  | shape cause => ["failed to generate simulated tree", cause.message]

/-- The error and its causes in one line. -/
def message (e : SimulationError) : String := ": ".intercalate e.chain

/-- Lines after the first one, indented. -/
def indent (width : Nat) (text : String) : String :=
  ("\n" ++ String.ofList (List.replicate width ' ')).intercalate (text.splitOn "\n")

/-- The error, and below it its causes, numbered if there are several. -/
def report (e : SimulationError) : String :=
  match e.chain with
  | [] => ""
  | [error] => error
  | [error, cause] => error ++ "\n\nCaused by:\n    " ++ indent 4 cause
  | error :: causes =>
    let lines := causes.zipIdx.map fun (cause, n) =>
      "\n" ++ "    " ++ toString n ++ ": " ++ indent 7 cause
    error ++ "\n\nCaused by:" ++ String.join lines

end SimulationError

/-! ### Operations -/

/-- What an operation does to the tree. -/
inductive Effect
  | nothing
  /-- A directory comes into being. -/
  | instantiate (entry : Handle)
  /-- An entry gets the inode of another. -/
  | link (existing target : Handle)
  /-- An entry gets the inode of another, which is removed. -/
  | move (source target : Handle)
  /-- An entry is removed. -/
  | unlink (entry : Handle)
  deriving DecidableEq

/-- The tree after an operation. -/
def Effect.apply (t : Tree) : Effect → Tree
  | nothing => t
  | instantiate entry => (t.instantiate entry).2
  | link existing target => (t.link existing target).2
  | move source target => ((t.link source target).2).unlink source
  | unlink entry => t.unlink entry

/-- One call of a worker. -/
structure Operation where
  args : Arguments
  effect : Effect := .nothing
  retval : Int64 := 0
  /-- The entry that is forgotten once the call has returned. -/
  dropped : Option Handle := none

/-- What a worker draws for one call. -/
structure Choice where
  kind : Kind
  /-- A number that selects a file. -/
  file : Nat
  /-- A number that selects a directory. -/
  folder : Nat
  /-- The name of an entry to be made. -/
  name : Bytes

/-! ### Workers -/

/-- Where a worker is in its current call. -/
inductive Phase
  | idle
  | started (operation : Operation)
  | performed (operation : Operation)

/-- One simulated thread. -/
structure Worker where
  invocation : Invocation
  /-- The directories it made and has not removed, newest first. -/
  directories : List Handle := []
  /-- The links it made and has not removed, newest first. -/
  links : List Handle := []
  /-- The number of calls it has begun. -/
  begun : Nat := 0
  phase : Phase := .idle

namespace Worker

/-- The mode of a directory that is made. -/
def directoryMode : UInt32 := 0o755

/-- The mode that is set on a file. -/
def fileMode : UInt32 := 0o100600

/-- The mask that says that the mode is set. -/
def modeAttribute : UInt32 := 1

/-- The worker's next call makes a directory. -/
def planMakeDir (w : Worker) (t : Tree) (folder : Handle) (name : Bytes) :
    Operation × Worker × Tree :=
  let (entry, t) := t.makeNegative folder name
  ({ args := .makeDir folder entry directoryMode, effect := .instantiate entry },
    { w with directories := entry :: w.directories }, t)

/-- The worker's next call links a file to a new entry. -/
def planLink (w : Worker) (t : Tree) (file folder : Handle) (name : Bytes) :
    Operation × Worker × Tree :=
  let (target, t) := t.makeNegative folder name
  ({ args := .link file folder target, effect := .link file target },
    { w with links := target :: w.links }, t)

/-- Turns what was drawn into the worker's next call. An entry that the call is to make is there
beforehand, without an inode. -/
def plan (w : Worker) (t : Tree) (grown : GrownTree) (c : Choice) : Operation × Worker × Tree :=
  let file := grown.files.getD (c.file % grown.files.length) Tree.root
  let folder := grown.folders.getD (c.folder % grown.folders.length) grown.top
  let dirOf (entry : Handle) := (t.accessor.parent entry).getD Tree.root
  match c.kind with
  | .openFile => ({ args := .openFile file t.mount, retval := 3 }, w, t)
  | .modify => ({ args := .modify file modifyMask }, w, t)
  | .setAttr => ({ args := .setAttr file modeAttribute fileMode }, w, t)
  | .makeDir => w.planMakeDir t folder c.name
  | .link => w.planLink t file folder c.name
  | .removeDir =>
    match w.directories with
    | [] => w.planMakeDir t folder c.name
    | entry :: directories =>
      ({ args := .removeDir (dirOf entry) entry, effect := .unlink entry, dropped := entry },
        { w with directories }, t)
  | .unlink =>
    match w.links with
    | [] => w.planLink t file folder c.name
    | entry :: links =>
      ({ args := .unlink (dirOf entry) entry, effect := .unlink entry, dropped := entry },
        { w with links }, t)
  | .rename =>
    match w.links with
    | [] => w.planLink t file folder c.name
    | source :: links =>
      let (target, t) := t.makeNegative folder c.name
      ({ args := .rename source folder target, effect := .move source target, dropped := source },
        { w with links := target :: links }, t)

end Worker

/-! ### The simulation -/

/-- A tree, the probe that traces it, and the workers on it. -/
structure Simulation where
  probe : Probe
  tree : Tree
  grown : GrownTree
  workers : List Worker
  /-- The number of calls of each worker. -/
  operations : Nat

/-- What one step finds: the time, what its worker draws if it begins a call, and the keys that the
probe draws. -/
structure Moment where
  time : UInt64
  choice : Choice
  drawn : Nat → DrawnKey

namespace Simulation

/-- The mount of the simulated tree. -/
def mount : MountId := 0x20

/-- The device of the simulated tree. -/
def device : DeviceId := 0x00800001

/-- The task of a worker. -/
def caller (pid : UInt32) (index : Nat) : Caller :=
  { pid, tid := (min (index + 1) 0xFFFFFFFF).toUInt32 : Caller }.setCommand
    (Bytes.ofString "fsprobe-sim")

/-- Grows a tree, watches it, and sets the workers up. A watch that is recursive covers every
directory of the tree, else it covers the top. -/
def start (config : Config) (options : SimulationOptions) (processors : Nat) (pid : UInt32)
    (draws : Draws) : Except SimulationError Simulation := do
  let probe ← (Probe.new config processors).mapError .config
  let (grown, tree) ← (options.shape.grow (.new mount device) draws).mapError .shape
  let seeds := if config.recursiveWatch then grown.folders else grown.folders.take 1
  let probe := seeds.foldl (fun p folder => (p.watch (tree.accessor.inodeOf folder)).2) probe
  let workers := if options.jobs = 0 then probe.units else options.jobs
  return {
    probe, tree, grown
    workers := (List.range workers).map fun index =>
      { invocation := { unit := index, caller := caller pid index } }
    operations := options.operations }

/-- What the probe finds around it in this step. -/
def surroundings (s : Simulation) (m : Moment) : Surroundings := ⟨.still s.tree.accessor, m.drawn⟩

/-- Puts back a worker. -/
def setWorker (s : Simulation) (index : Nat) (w : Worker) : Simulation :=
  { s with workers := s.workers.set index w }

/-- A worker begins its next call, unless it has done all of them. -/
def begin (s : Simulation) (m : Moment) (index : Nat) (w : Worker) : Simulation :=
  if w.begun < s.operations then
    let (operation, w, tree) := w.plan s.tree s.grown m.choice
    let invocation :=
      { w.invocation with caller := { w.invocation.caller with timestamp := m.time } }
    let s := { s with tree }
    let probe := s.probe.enter (s.surroundings m) invocation operation.args
    { s with probe }.setWorker index
      { w with invocation, begun := w.begun + 1, phase := .started operation }
  else s

/-- A worker's call returns. -/
def complete (s : Simulation) (m : Moment) (index : Nat) (w : Worker) (operation : Operation) :
    Option Emission × Simulation :=
  let (emission, probe) := s.probe.exit (s.surroundings m) w.invocation operation.retval
  let tree := operation.dropped.elim s.tree s.tree.forget
  (emission, { s with probe, tree }.setWorker index { w with phase := .idle })

/-- The next step of one worker, which may give a record. -/
def step (s : Simulation) (m : Moment) (index : Nat) : Option Emission × Simulation :=
  match s.workers[index]? with
  | none => (none, s)
  | some w =>
    match w.phase with
    | .idle => (none, s.begin m index w)
    | .started operation =>
      (none, { s with tree := operation.effect.apply s.tree }.setWorker index
        { w with phase := .performed operation })
    | .performed operation => s.complete m index w operation

/-- The steps of a schedule: for each, the moment and the worker. Gives the records in order. -/
def run (s : Simulation) : List (Moment × Nat) → List Emission × Simulation
  | [] => ([], s)
  | (moment, index) :: schedule =>
    let (emission, s) := s.step moment index
    let (emissions, s) := s.run schedule
    (emission.toList ++ emissions, s)

/-- What a worker draws for one of its calls. -/
def choice (c : Chance) (nameLength : Nat) : Choice where
  kind := Kind.all.getD ((c.number 0).toNat % Kind.all.length) .openFile
  file := (c.number 1).toNat
  folder := (c.number 2).toNat
  name := (c.branch 3).name nameLength

/-- The moment of a step that is known by its number. -/
def moment (c : Chance) (nameLength : Nat) (time : UInt64) (step : Nat) : Moment where
  time
  choice := choice ((c.branch 0).branch step) nameLength
  drawn n := ((c.branch 1).branch step).key n

/-- The schedule in which all workers take turns, step by step, till all calls have returned. -/
def turns (s : Simulation) : List Nat :=
  (List.replicate (3 * s.operations) (List.range s.workers.length)).flatten

end Simulation

end FsTrace
