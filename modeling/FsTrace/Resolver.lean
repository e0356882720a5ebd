import FsTrace.Config
import FsTrace.Pending
import FsTrace.Resolver.FragmentStore
import FsTrace.Resolver.Inline

/-!
# Resolving paths

There are three ways to hand a path to the consumer: as bytes that follow the record, as a chain of
fragments, or as one stored value under a key drawn at random.

* `Resolver`, a resolution mode with the table that it needs;
* `Resolver.resolve` and its result, a `Resolution`;
* `DrawnKey`: a key drawn at random is never `0`.
-/

namespace FsTrace

/-- A key drawn at random. -/
structure DrawnKey where
  key : UInt32
  ne_zero : key ≠ 0
  deriving DecidableEq

/-- Paths stored whole, by key. -/
abbrev WholePaths := Table UInt32 WholePath

/-- A mode, with the table in which it keeps paths. -/
inductive Resolver
  | inlineBuffer
  | fragmentStore (store : FragmentStore)
  | singleFragment (table : WholePaths)

/-- What resolving an entry did. -/
structure Resolution where
  path : PathRef
  /-- Whether a part of the path is missing, for lack of depth or space. -/
  truncated : Bool
  paths : PathBuffer
  resolver : Resolver

namespace Resolver

/-- The resolver of a mode, with an empty table. -/
def new (capacities : Capacities) : ResolutionMode → Resolver
  | .inlineBuffer => inlineBuffer
  | .fragmentStore => fragmentStore (.new capacities.pathFragments)
  | .singleFragment => singleFragment (.new capacities.singleFragments)

/-- The mode of a resolver. -/
def mode : Resolver → ResolutionMode
  | inlineBuffer => .inlineBuffer
  | fragmentStore _ => .fragmentStore
  | singleFragment _ => .singleFragment

/-- The fragments, if the mode stores any. -/
def fragments? : Resolver → Option (Table Location Fragment)
  | fragmentStore s => some s.table
  | _ => none

/-- The paths stored whole, if the mode stores any. -/
def wholePaths? : Resolver → Option WholePaths
  | singleFragment t => some t
  | _ => none

/-- Drops what is known of a location. -/
def forget (leaf : Location) : Resolver → Resolver
  | fragmentStore s => fragmentStore (s.forget leaf)
  | r => r

/-- Stores a path whole. The buffer is used to build the path in, and is left empty. -/
def storeWhole (table : WholePaths) (view : View) (drawn : DrawnKey) (paths : PathBuffer)
    (d : Handle) : Resolution :=
  let written := writePath view paths.reset d wholePathSize
  { path := .keyed drawn.key (written.lengthFrom 0)
    truncated := written.truncated
    paths := written.paths.reset
    resolver := singleFragment (table.insert drawn.key (.ofBytes written.paths.filled)).2 }

/-- Resolves the path of `d`, whose own location is `leaf`. A path that becomes part of the record
is written at the cursor of the buffer. -/
def resolve (r : Resolver) (view : View) (drawn : DrawnKey) (paths : PathBuffer) (d : Handle)
    (leaf : Location) : Resolution :=
  match r with
  | inlineBuffer =>
    let written := writePath view paths d pathBufferSize
    { path := .inline (written.lengthFrom paths.cursor)
      truncated := written.truncated
      paths := written.paths
      resolver := inlineBuffer }
  | fragmentStore s =>
    let (truncated, s) := s.resolve view d leaf
    { path := .chain leaf, truncated, paths, resolver := fragmentStore s }
  | singleFragment table => storeWhole table view drawn paths d

end Resolver

end FsTrace
