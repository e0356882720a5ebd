import FsTrace.Ascent
import FsTrace.Table

/-!
# Paths as chains of fragments

Each entry on the way up is stored once, under its location, with the location of its parent. A
walk ends early where it meets a stored entry, since the rest of the chain is stored as well. A walk
that runs out of depth ends its chain with a detached fragment; a later walk that reaches the entry
replaces it.

* `FragmentStore`, with the numbers of fragments written and of walks that ended early;
* `FragmentStore.resolve` stores the chain of an entry, `forget` drops what is known of a location.
-/

namespace FsTrace

/-- The fragments by location. -/
structure FragmentStore where
  table : Table Location Fragment
  inserted : Nat := 0
  deduplicated : Nat := 0

namespace FragmentStore

/-- The store without fragments. -/
def new (capacity : Nat) : FragmentStore := { table := .new capacity }

/-- Stores a fragment. -/
def put (s : FragmentStore) (key : Location) (fragment : Fragment) : FragmentStore :=
  { s with table := (s.table.insert key fragment).2, inserted := s.inserted + 1 }

/-- Drops the fragment of a location, so that the next walk stores the entry as it is then. -/
def forget (s : FragmentStore) (leaf : Location) : FragmentStore :=
  { s with table := (s.table.remove leaf).2 }

/-- The location of an entry's parent, on the mount of the leaf, or nowhere above a boundary. -/
def parentLocation (mount : MountId) (level : Level) : Location :=
  if level.isBoundary then .nowhere else ⟨level.parentInode, mount⟩

/-- Marks the end of a chain whose walk ran out of depth, unless the entry is stored. -/
def markCut (s : FragmentStore) (key : Location) : FragmentStore :=
  let (stored, table) := s.table.contains key
  let s := { s with table }
  if stored then s else s.put key .detached

/-- Stores the entries from `key` upwards, and gives whether the walk ran out of depth. -/
def storeLevels (mount : MountId) (s : FragmentStore) (key : Location) :
    List Level → Bool × FragmentStore
  | [] => (true, s.markCut key)
  | level :: above =>
    let (stored, table) := s.table.get key
    let s := { s with table }
    if stored.any (! ·.isDetached) then (false, { s with deduplicated := s.deduplicated + 1 })
    else
      let next := parentLocation mount level
      let s := s.put key (.ofName next level.name)
      if next.isNowhere then (false, s) else storeLevels mount s next above

/-- Stores the chain of `d`, whose own location is `leaf`. An entry without an inode is not stored:
all of them would share one location. -/
def resolve (s : FragmentStore) (view : View) (d : Handle) (leaf : Location) :
    Bool × FragmentStore :=
  if leaf.hasNoInode then (false, s) else s.storeLevels leaf.mount leaf (ascent view d)

end FragmentStore

end FsTrace
