import FsTrace.Resolver
import FsTrace.Scratch
import FsTrace.Statistics
import FsTrace.WatchSet

/-!
# The probe

The probe is told when an operation starts and when it returns. `Probe.enter` captures what can
only be seen before the operation runs, in the call of its unit's slot, and keeps a copy of it under
the thread's key; `Probe.exit` completes it with the return value, resolves the paths, and gives the
record.

* `Invocation`, `Arguments`: who runs an operation, and on what; `Arguments.capture` fills a call;
* `Surroundings`: the tree that a handler reads and the keys that it draws;
* `Emission`: a record with the path bytes that follow it;
* `Probe`, `Probe.new`, `Probe.enter`, `Probe.exit`, `Probe.watch`, `Probe.statistics`.
-/

namespace FsTrace

/-- Where and on whose behalf a handler runs. -/
structure Invocation where
  /-- The execution unit, which selects the slot of working memory. -/
  unit : Nat := 0
  caller : Caller := {}

/-- What is known of an operation when it starts. -/
inductive Arguments
  | openFile (entry : Handle) (mount : MountId)
  | makeDir (dir entry : Handle) (mode : UInt32)
  | link (source targetDir target : Handle)
  | rename (source targetDir target : Handle)
  | unlink (dir entry : Handle)
  | removeDir (dir entry : Handle)
  /-- Only changes of the content are traced, see `modifyMask`. -/
  | modify (entry : Handle) (mask : UInt32)
  | setAttr (entry : Handle) (valid mode : UInt32)
  deriving DecidableEq

/-- The mask of a notification that the content changed. -/
def modifyMask : UInt32 := 2

namespace Arguments

/-- The kind of the operation. -/
def kind : Arguments → Kind
  | openFile .. => .openFile
  | makeDir .. => .makeDir
  | link .. => .link
  | rename .. => .rename
  | unlink .. => .unlink
  | removeDir .. => .removeDir
  | modify .. => .modify
  | setAttr .. => .setAttr

/-- Whether the operation is one that is traced at all. -/
def isTraced : Arguments → Bool
  | modify _ mask => mask = modifyMask
  | _ => true

/-- Fills a call with what can be seen of the operation before it runs. What is not set here stays
as the call has it. -/
def capture (a : Accessor) (args : Arguments) (call : PendingCall) : PendingCall :=
  match args with
  | openFile entry mount =>
    { call with
      srcEntry := entry
      event.src.inode := a.inodeOf entry
      event.src.mount := mount
      event.src.device := a.deviceOf entry }
  | makeDir dir entry mode =>
    { call with
      srcEntry := entry
      event.mode := mode.toInt32
      event.src.mount := a.mountOf dir
      event.src.device := a.deviceOf dir }
  | link source targetDir target | rename source targetDir target =>
    { call with
      srcEntry := source
      targetDir
      targetEntry := target
      event.src.inode := a.inodeOf source
      event.src.mount := a.mountOf source
      event.src.device := a.deviceOf source }
  | unlink dir entry | removeDir dir entry =>
    { call with
      srcEntry := entry
      event.src.inode := a.inodeOf entry
      event.src.mount := a.mountOf dir
      event.src.device := a.deviceOf dir }
  | modify entry _ =>
    { call with
      srcEntry := entry
      event.src.inode := a.inodeOf entry
      event.src.mount := a.mountOf entry
      event.src.device := a.deviceOf entry }
  | setAttr entry valid mode =>
    { call with
      srcEntry := entry
      event.flags := valid.toInt32
      event.mode := mode.toInt32
      event.src.inode := a.inodeOf entry
      event.src.mount := a.mountOf entry
      event.src.device := a.deviceOf entry }

end Arguments

/-- What a handler finds around it: the tree as it reads it, and the keys that it draws. -/
structure Surroundings where
  view : View
  drawn : Nat → DrawnKey

/-- A record and the path bytes that follow it: those of the source, then those of the target. -/
structure Emission where
  event : Event
  paths : Bytes
  deriving DecidableEq

/-- The state of the tracer. -/
structure Probe where
  modes : Modes
  scratch : ScratchPool
  pending : PendingCalls
  watched : WatchSet
  resolver : Resolver
  counters : Counters

/-- The longest prefix that can travel with a pending call and holds only whole segments, and
whether anything was cut off. -/
def embed (bytes : Bytes) : WholePath × Bool :=
  if bytes.length ≤ wholePathSize then (.ofBytes bytes, false)
  else
    let kept := ((bytes.take wholePathSize).reverse.dropWhile (· != 0)).reverse
    (.ofBytes kept, true)

namespace Endpoint

/-- Notes where the path of an entry is. A chain is found from the entry's location. -/
def recordPath (e : Endpoint) : PathRef → Endpoint
  | .inline length => { e with pathLength := length }
  | .keyed key length => { e with pathKey := key, pathLength := length }
  | .chain _ | .embedded _ | .unresolved => e

end Endpoint

namespace Probe

/-- A probe for a configuration, on a machine with this many processors. -/
def new (config : Config) (processors : Nat) : Except ConfigError Probe := do
  config.validate
  return {
    modes := .ofConfig config
    scratch := .new (config.units processors)
    pending := .new config.capacities.pendingCalls
    watched := .new config.filteringEnabled config.capacities.inodeFilter
    resolver := .new config.capacities config.resolutionMode
    counters := {} }

/-- The number of execution units. -/
def units (p : Probe) : Nat := p.scratch.units

/-- Counts one more if the condition holds. -/
def countIf (p : Probe) (condition : Bool) (counter : Counter) : Probe :=
  { p with counters := p.counters.incrementIf condition counter }

/-- Counts one more. -/
def count (p : Probe) (counter : Counter) : Probe := p.countIf true counter

/-- Watches an inode, and gives whether it was not watched before. -/
def watch (p : Probe) (inode : Inode) : Bool × Probe :=
  let (added, watched) := p.watched.register inode
  (added, { p with watched })

/-- The counters of the probe and of its path tables. -/
def statistics (p : Probe) : Statistics :=
  match p.resolver with
  | .inlineBuffer => { counters := p.counters }
  | .fragmentStore s =>
    { counters := p.counters
      fragmentsInserted := s.inserted
      fragmentsDeduplicated := s.deduplicated
      fragmentsEvicted := s.table.evictions }
  | .singleFragment t => { counters := p.counters, singleFragmentsEvicted := t.evictions }

/-- Resolves the path of an entry, and counts it if a part of it is missing. -/
def resolve (p : Probe) (view : View) (drawn : DrawnKey) (paths : PathBuffer) (d : Handle)
    (leaf : Location) : PathRef × PathBuffer × Probe :=
  let r := p.resolver.resolve view drawn paths d leaf
  (r.path, r.paths, { p with resolver := r.resolver }.countIf r.truncated .truncatedPaths)

/-! ### The start of an operation -/

/-- Whether a captured call is in scope. Operations with a target are when either end is. -/
def inScope (p : Probe) (a : Accessor) (call : PendingCall) : Bool × Probe :=
  match p.watched.inScope (a.inodeOf call.srcEntry) (a.parentInodeOf call.srcEntry) with
  | (true, watched) => (true, { p with watched })
  | (false, watched) =>
    if call.event.kind.hasTarget then
      let (found, watched) :=
        watched.inScope (a.inodeOf call.targetEntry) (a.inodeOf call.targetDir)
      (found, { p with watched })
    else (false, { p with watched })

/-- Resolves the source of a rename, whose location is gone once the operation has run. With
fragments it is stored under a drawn key, as the inode moves on to the target. -/
def resolveRenameSource (p : Probe) (s : Surroundings) (paths : PathBuffer) (call : PendingCall) :
    PendingCall × PathBuffer × Probe :=
  let call :=
    if p.modes.resolution = .fragmentStore then
      { call with event.src.pathKey := (s.drawn 0).key }
    else call
  match p.resolve s.view (s.drawn 0) paths call.srcEntry call.event.srcLocation with
  | (.inline _, paths, p) =>
    let (path, cut) := embed paths.filled
    ({ call with srcPath := .embedded path }, paths.reset, p.countIf cut .truncatedPaths)
  | (path, paths, p) => ({ call with srcPath := path }, paths.reset, p)

/-- Keeps a call under its thread's key until its operation returns. -/
def park (p : Probe) (key : Nat) (call : PendingCall) : Probe :=
  let (evicted, pending) := p.pending.start key call
  { p with pending }.countIf evicted.isSome .pendingEvicted

/-- An operation starts. What is captured is written into the call of its unit's slot, once the slot
is readied. -/
def enter (p : Probe) (s : Surroundings) (i : Invocation) (args : Arguments) : Probe :=
  if p.modes.events.contains args.kind && args.isTraced then
    let slot := (p.scratch.slot i.unit).prepare args.kind i.caller
    let call := args.capture (s.view 0) slot.pending
    match p.inScope (s.view 1) call with
    | (false, p) =>
      let p := { p with scratch := p.scratch.setSlot i.unit { slot with pending := call } }
      p.count .filteredOut
    | (true, p) =>
      let (call, paths, p) :=
        if args.kind = .rename then
          p.resolveRenameSource { s with view := s.view.later 2 } slot.paths call
        else (call, slot.paths, p)
      let p := { p with scratch := p.scratch.setSlot i.unit ⟨call, paths⟩ }
      p.park i.caller.threadKey call
  else p

/-! ### The return of an operation -/

/-- What can be read only after the operation has run: the inode of a new directory, and the
target of an operation that has one. -/
def readOutcome (a : Accessor) (retval : Int64) (call : PendingCall) : PendingCall :=
  let event := { call.event with retval }
  match event.kind with
  | .makeDir => { call with event := { event with src.inode := a.inodeOf call.srcEntry } }
  | .link | .rename =>
    { call with
      event := { event with
        target := { event.target with
          inode := a.inodeOf call.targetEntry
          mount := a.mountOf call.targetDir
          device := a.deviceOf call.targetDir } } }
  | _ => { call with event }

/-- The path of the source: resolved now, or brought along from the start. -/
def sourcePath (p : Probe) (s : Surroundings) (paths : PathBuffer) (call : PendingCall) :
    PathRef × PathBuffer × Probe :=
  match call.srcPath with
  | .unresolved => p.resolve s.view (s.drawn 0) paths call.srcEntry call.event.srcLocation
  | .embedded path =>
    let (length, paths) := paths.pushBytes path.bytes
    (.inline length, paths, p)
  | path => (path, paths, p)

/-- The path of the target, if there is one. What was stored for the location of a renamed entry is
dropped first: it tells where the entry was before. -/
def targetPath (p : Probe) (s : Surroundings) (paths : PathBuffer) (call : PendingCall) :
    PathRef × PathBuffer × Probe :=
  let leaf := call.event.targetLocation
  let p :=
    if call.event.kind = .rename then { p with resolver := p.resolver.forget leaf } else p
  if call.event.kind.hasTarget then
    p.resolve (s.view.later maxPathDepth) (s.drawn 1) paths call.targetEntry leaf
  else (.unresolved, paths, p)

/-- Watches the directory or the entry that a successful operation brought into scope. -/
def registerFollowup (p : Probe) (event : Event) : Probe :=
  let inode? : Option Inode :=
    match event.kind with
    | .makeDir => if p.modes.registersNewDirectories then some event.src.inode else none
    | .rename => if p.modes.registersRenamedEntries then some event.target.inode else none
    | _ => none
  match inode? with
  | some inode =>
    if event.retval = 0 then
      let (added, p) := p.watch inode
      p.countIf added .inodesRegistered
    else p
  | none => p

/-- Completes a call, and gives its record. -/
def finish (p : Probe) (s : Surroundings) (i : Invocation) (retval : Int64) (call : PendingCall) :
    Emission × Probe :=
  let call := readOutcome (s.view 0) retval call
  let s := { s with view := s.view.later 1 }
  let slot := p.scratch.slot i.unit
  let (src, paths, p) := p.sourcePath s slot.paths.reset call
  let call := { call with event.src := call.event.src.recordPath src }
  let (target, paths, p) := p.targetPath s paths call
  let event := { call.event with target := call.event.target.recordPath target }
  let p := { p with scratch := p.scratch.setSlot i.unit { slot with paths } }
  (⟨event, paths.filled⟩, (p.registerFollowup event).count .eventsEmitted)

/-- An operation returns. Gives the record, if its start is known. -/
def exit (p : Probe) (s : Surroundings) (i : Invocation) (retval : Int64) :
    Option Emission × Probe :=
  match p.pending.complete i.caller.threadKey with
  | (some call, pending) =>
    let (emission, p) := { p with pending }.finish s i retval call
    (some emission, p)
  | (none, pending) => (none, { p with pending }.count .missingCorrelation)

end Probe

end FsTrace
