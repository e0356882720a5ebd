import FsTrace.Ascent
import FsTrace.PathBuffer

/-!
# Paths as bytes

`writePath` writes the names of an ascent into a path buffer, leaf first. An entry without a name
ends the path and is not written. The path is truncated if a name found no room, or if the ascent
ended before a boundary.
-/

namespace FsTrace

/-- A path in a buffer: the buffer after it was written, and whether a part of it is missing. -/
structure WrittenPath where
  paths : PathBuffer
  truncated : Bool

/-- Writes the names of the entries, each one before the limit. -/
def writeLevels (limit : Nat) (paths : PathBuffer) : List Level → WrittenPath
  | [] => ⟨paths, true⟩
  | level :: above =>
    if level.name.isEmpty then ⟨paths, false⟩
    else
      match paths.pushSegment level.name limit with
      | none => ⟨paths, true⟩
      | some (_, paths) =>
        if level.isBoundary then ⟨paths, false⟩ else writeLevels limit paths above

/-- Writes the path of `d`. -/
def writePath (view : View) (paths : PathBuffer) (d : Handle) (limit : Nat) : WrittenPath :=
  writeLevels limit paths (ascent view d)

/-- The number of bytes that a written path takes in a buffer whose cursor was at `start`. -/
def WrittenPath.lengthFrom (w : WrittenPath) (start : Nat) : Nat := w.paths.cursor - start

end FsTrace
