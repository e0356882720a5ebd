import FsTrace.Text.Hex

/-!
# Locations

A directory entry is located by its inode and the mount it was reached through.

* `Location`, with `nowhere` (no inode on no mount), `isNowhere` and `hasNoInode`;
* `toText` (the short form) and `describe` (the long form).
-/

namespace FsTrace

/-- The number of an inode; `0` for an entry without one. -/
abbrev Inode := Nat

/-- The number of a mount. -/
abbrev MountId := UInt32

/-- The number of a device. -/
abbrev DeviceId := UInt32

/-- An inode on a mount. -/
structure Location where
  inode : Inode
  mount : MountId
  deriving DecidableEq, Hashable

namespace Location

/-- The location that stands for "no parent". -/
def nowhere : Location := ⟨0, 0⟩

/-- Whether this is the location that stands for "no parent". -/
def isNowhere (l : Location) : Bool := l.inode = 0 ∧ l.mount = 0

/-- Whether the entry has no inode. -/
def hasNoInode (l : Location) : Bool := l.inode = 0

/-- The mount and the inode, in hexadecimal. -/
def toText (l : Location) : String :=
  Text.hex l.mount.toNat ++ "/" ++ Text.hex l.inode

/-- The fields by name. -/
def describe (l : Location) : String :=
  s!"PathKey \x7b ino: {l.inode}, mount_id: {l.mount}, padding: 0 \x7d"

@[simp] theorem isNowhere_nowhere : nowhere.isNowhere = true := rfl

theorem isNowhere_iff {l : Location} : l.isNowhere = true ↔ l = nowhere := by
  cases l
  simp [isNowhere, nowhere]

end Location

end FsTrace
