import FsTrace.Event.Kind
import FsTrace.Event.Caller
import FsTrace.Location

/-!
# Events

The record of one completed operation.

* `Endpoint`: an entry that takes part, and where the bytes of its path are: `pathLength` of them
  follow the record, or they are stored under `pathKey`, or under the entry's location;
* `Event`, with the locations of its two endpoints.
-/

namespace FsTrace

/-- An entry that takes part in an operation. -/
structure Endpoint where
  inode : Inode := 0
  mount : MountId := 0
  device : DeviceId := 0
  pathKey : UInt32 := 0
  pathLength : Nat := 0
  deriving DecidableEq

/-- The record of one operation; `target` is used by the kinds that have one. -/
structure Event where
  caller : Caller := {}
  kind : Kind := .openFile
  flags : Int32 := 0
  mode : Int32 := 0
  retval : Int64 := 0
  src : Endpoint := {}
  target : Endpoint := {}
  deriving DecidableEq

namespace Event

/-- Where the source's path starts. A path key takes the place of the inode, which after a rename
belongs to the target. -/
def srcLocation (e : Event) : Location :=
  if e.src.pathKey ≠ 0 then ⟨e.src.pathKey.toNat, e.src.mount⟩ else ⟨e.src.inode, e.src.mount⟩

/-- Where the target's path starts. -/
def targetLocation (e : Event) : Location := ⟨e.target.inode, e.target.mount⟩

end Event

end FsTrace
