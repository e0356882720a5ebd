import FsTrace.Bytes
import FsTrace.Location
import FsTrace.Text.Hex

/-!
# Reading directory entries

Entries are read through an `Accessor`, by handles that mean nothing outside it. Every read may
fail; the field in question is then zero, and a parent that cannot be read is the entry itself.

The tree may change while it is read, so that a whole operation reads from a `View`: a sequence of
accessors, one for each point in time at which something is read. `View.still` is the view of a tree
that does not change.

* `Handle`, `NameRead`, `Accessor`, `View`;
* `inodeOf`, `mountOf`, `deviceOf`, `parentOf`, `parentInodeOf`: reads that never fail.
-/

namespace FsTrace

/-- A reference to a directory entry. -/
structure Handle where
  id : Nat
  deriving DecidableEq, Hashable

/-- The reference in hexadecimal. -/
def Handle.describe (h : Handle) : String := s!"DentryHandle(0x" ++ Text.hex h.id ++ ")"

/-- What reading a name did: the bytes it wrote at the front of the reader's buffer, and the number
of bytes it says are the name. -/
structure NameRead where
  written : Bytes
  claimed : Nat

/-- The reads that a directory tree answers. -/
structure Accessor where
  /-- Writes as much of the name as fits into a buffer of the given size. -/
  name : Handle → Nat → Option NameRead
  parent : Handle → Option Handle
  /-- The inode, `0` for an entry that has none yet. -/
  inode : Handle → Option Inode
  mount : Handle → Option MountId
  device : Handle → Option DeviceId

namespace Accessor

/-- The inode, or `0`. -/
def inodeOf (a : Accessor) (d : Handle) : Inode := (a.inode d).getD 0

/-- The mount, or `0`. -/
def mountOf (a : Accessor) (d : Handle) : MountId := (a.mount d).getD 0

/-- The device, or `0`. -/
def deviceOf (a : Accessor) (d : Handle) : DeviceId := (a.device d).getD 0

/-- The parent, or the entry itself. -/
def parentOf (a : Accessor) (d : Handle) : Handle := (a.parent d).getD d

/-- The inode of the parent, or `0`. -/
def parentInodeOf (a : Accessor) (d : Handle) : Inode := a.inodeOf (a.parentOf d)

end Accessor

/-- What is read at each point in time. -/
abbrev View := Nat → Accessor

namespace View

/-- The view of a tree that does not change. -/
def still (a : Accessor) : View := fun _ => a

/-- The view from a later point in time on. -/
def later (v : View) (n : Nat) : View := fun k => v (n + k)

@[simp] theorem still_apply (a : Accessor) (n : Nat) : still a n = a := rfl

@[simp] theorem later_apply (v : View) (n k : Nat) : v.later n k = v (n + k) := rfl

@[simp] theorem later_still (a : Accessor) (n : Nat) : (still a).later n = still a := rfl

end View

end FsTrace
