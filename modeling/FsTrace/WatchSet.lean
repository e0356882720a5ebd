import FsTrace.Location
import FsTrace.Table

/-!
# Watched inodes

An entry is in scope when it, or the directory that directly contains it, is watched. Deeper
descendants are covered by watching directories as they are created, not by looking further up.

* `WatchSet.register` adds an inode, `WatchSet.inScope` asks; inode `0` is never watched.
-/

namespace FsTrace

/-- The watched inodes; a set that is not enabled lets everything through. -/
structure WatchSet where
  enabled : Bool
  inodes : Table Inode Unit

namespace WatchSet

/-- No inode is watched yet. -/
def new (enabled : Bool) (capacity : Nat) : WatchSet := ⟨enabled, .new capacity⟩

/-- The number of watched inodes. -/
def size (w : WatchSet) : Nat := w.inodes.size

/-- Whether no inode is watched. -/
def isEmpty (w : WatchSet) : Bool := w.inodes.isEmpty

/-- Whether an inode is watched, which counts as a use. -/
def watches (w : WatchSet) (inode : Inode) : Bool × WatchSet :=
  if inode = 0 then (false, w)
  else
    let (found, inodes) := w.inodes.contains inode
    (found, { w with inodes })

/-- Whether an entry is in scope, given its inode and that of its directory. -/
def inScope (w : WatchSet) (inode parentInode : Inode) : Bool × WatchSet :=
  if w.enabled then
    match w.watches inode with
    | (true, w) => (true, w)
    | (false, w) => w.watches parentInode
  else (true, w)

/-- Watches an inode, which may push another one out. Gives whether it was not watched before. -/
def register (w : WatchSet) (inode : Inode) : Bool × WatchSet :=
  if inode = 0 then (false, w)
  else
    match w.watches inode with
    | (true, w) => (false, w)
    | (false, w) => (true, { w with inodes := (w.inodes.insert inode ()).2 })

end WatchSet

end FsTrace
