import FsTrace.Accessor
import FsTrace.Fragment

/-!
# The way up to the root

`ascent` lists the entries from a given one towards the root: it ends with the first boundary, or
with the last entry that the depth allows.

An entry is a boundary when it is its own parent or shares its parent's inode, when its name is
that of a root, or when it has no name. All names are read into one buffer, so that a read that
claims more than it wrote shows what the entries before it left there.
-/

namespace FsTrace

/-- The most entries that are visited on the way up. -/
def maxPathDepth : Nat := 75

/-- An entry on the way up. -/
structure Level where
  entry : Handle
  name : Bytes
  inode : Inode
  parent : Handle
  parentInode : Inode
  deriving DecidableEq

namespace Level

/-- Whether nothing above the entry is visited. -/
def isBoundary (l : Level) : Bool :=
  l.parent = l.entry ∨ l.inode = l.parentInode ∨ l.name.isEmpty ∨ l.name.head? = some Bytes.slash

end Level

/-- The buffer that names are read into. -/
abbrev NameBuffer := ByteField (nameSize - 1)

/-- Reads a name into the buffer. Gives what the reader takes for the name, and the buffer after
it. -/
def readName (a : Accessor) (d : Handle) (buffer : NameBuffer) : Bytes × NameBuffer :=
  match a.name d (nameSize - 1) with
  | some read =>
    let buffer := buffer.write 0 read.written
    (buffer.bytes.take read.claimed, buffer)
  | none => ([], buffer)

/-- Reads one entry. -/
def readLevel (a : Accessor) (d : Handle) (buffer : NameBuffer) : Level × NameBuffer :=
  let (name, buffer) := readName a d buffer
  let parent := a.parentOf d
  (⟨d, name, a.inodeOf d, parent, a.inodeOf parent⟩, buffer)

/-- The entries from `d` upwards, at most `depth` of them. -/
def climb (view : View) (d : Handle) (buffer : NameBuffer) : (depth : Nat) → List Level
  | 0 => []
  | depth + 1 =>
    let (level, buffer) := readLevel (view 0) d buffer
    if level.isBoundary then [level]
    else level :: climb (view.later 1) level.parent buffer depth

/-- The entries from `d` upwards, up to the first boundary or the greatest depth. -/
def ascent (view : View) (d : Handle) : List Level :=
  climb view d (.zero _) maxPathDepth

theorem length_climb_le (view : View) (d : Handle) (buffer : NameBuffer) (depth : Nat) :
    (climb view d buffer depth).length ≤ depth := by
  induction depth generalizing view d buffer with
  | zero => simp [climb]
  | succ depth ih =>
    simp only [climb]
    split
    · simp
    · simpa using ih _ _ _

theorem length_ascent_le (view : View) (d : Handle) : (ascent view d).length ≤ maxPathDepth :=
  length_climb_le _ _ _ _

end FsTrace
