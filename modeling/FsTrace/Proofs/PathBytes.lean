import FsTrace.Probe
import Mathlib.Tactic

/-!
# Paths in buffers

What a path buffer holds after paths were written into it, without its cursor and what is left over
in it.

* `PathBuffer.filled_append`: bytes that find room are added to what was written;
* `pathBytes`: the names of an ascent as they are written from a position on, and
  `filled_writePath`: writing a path adds just these;
* `cutShort`: whether a part of the path is missing, and `truncated_writePath`;
* `length_pathBytes_le`: a path stays within its limit, and `embed_isPrefix`: what travels with a
  call is the front of it.
-/

namespace FsTrace

namespace PathBuffer

variable {b : PathBuffer} {bytes name : Bytes} {limit : Nat}

theorem cursor_eq_length (b : PathBuffer) : b.cursor = b.filled.length := by
  rw [filled, List.length_reverse, b.cursor_eq]

@[simp] theorem filled_reset (b : PathBuffer) : b.reset.filled = [] := rfl

/-- Bytes are added as long as there is room. -/
theorem filled_append_take (b : PathBuffer) (bytes : Bytes) :
    (b.append bytes).filled = b.filled ++ bytes.take (pathBufferSize - b.filled.length) := by
  have hroom : b.room = pathBufferSize - b.filled.length := by rw [room, cursor_eq_length]
  simp only [append, filled, List.reverse_append, List.reverse_reverse] at hroom ⊢
  rw [hroom]

theorem filled_append (h : b.filled.length + bytes.length ≤ pathBufferSize) :
    (b.append bytes).filled = b.filled ++ bytes := by
  rw [filled_append_take, List.take_of_length_le (by omega)]

theorem pushBytes_of_le (h : b.filled.length + bytes.length ≤ pathBufferSize) :
    b.pushBytes bytes = (bytes.length, b.append bytes) := by
  have hroom : bytes.length ≤ b.room := by
    rw [room, cursor_eq_length]
    omega
  rw [pushBytes, List.take_of_length_le hroom]

theorem length_segment_le (name : Bytes) : (segment name).length ≤ nameSize := by
  rw [segment, List.length_append, List.length_take, List.length_singleton, nameSize]
  omega

theorem pushSegment_of_le (h : b.filled.length + nameSize ≤ min limit pathBufferSize) :
    b.pushSegment name limit = some ((segment name).length, b.append (segment name)) := by
  rw [pushSegment, cursor_eq_length, if_neg (Nat.not_lt.2 h)]

theorem pushSegment_of_lt (h : min limit pathBufferSize < b.filled.length + nameSize) :
    b.pushSegment name limit = none := by
  rw [pushSegment, cursor_eq_length, if_pos h]

end PathBuffer

/-! ### Paths -/

/-- The names of some entries as they are written from a position of a buffer on: up to a boundary,
to an entry without a name, or to where a name of any length might not fit before the limit. -/
def pathBytes (limit start : Nat) : List Level → Bytes
  | [] => []
  | level :: above =>
    if level.name = [] ∨ min limit pathBufferSize < start + nameSize then []
    else
      let bytes := PathBuffer.segment level.name
      bytes ++ if level.isBoundary then [] else pathBytes limit (start + bytes.length) above

variable {view : View} {paths : PathBuffer} {d : Handle} {limit start : Nat} {levels : List Level}

/-- A path stays within its limit. -/
theorem length_pathBytes_le (h : start ≤ min limit pathBufferSize) :
    start + (pathBytes limit start levels).length ≤ min limit pathBufferSize := by
  induction levels generalizing start with
  | nil => exact h
  | cons level above ih =>
    rw [pathBytes]
    split
    · exact h
    · next hroom =>
      have hfits : start + (PathBuffer.segment level.name).length ≤ min limit pathBufferSize := by
        have := PathBuffer.length_segment_le level.name
        omega
      simp only
      split
      · rwa [List.append_nil]
      · rw [List.length_append, ← Nat.add_assoc]
        exact ih hfits

theorem filled_writeLevels (limit : Nat) (paths : PathBuffer) (levels : List Level) :
    (writeLevels limit paths levels).paths.filled =
      paths.filled ++ pathBytes limit paths.filled.length levels := by
  induction levels generalizing paths with
  | nil => exact (List.append_nil _).symm
  | cons level above ih =>
    rw [writeLevels, pathBytes]
    by_cases hname : level.name = []
    · rw [if_pos (by rw [hname]; rfl), if_pos (Or.inl hname), List.append_nil]
    rw [if_neg (by rwa [List.isEmpty_iff])]
    by_cases hroom : min limit pathBufferSize < paths.filled.length + nameSize
    · rw [PathBuffer.pushSegment_of_lt hroom, if_pos (Or.inr hroom), List.append_nil]
    · have hlength := PathBuffer.length_segment_le level.name
      have hfilled : (paths.append (PathBuffer.segment level.name)).filled =
          paths.filled ++ PathBuffer.segment level.name := PathBuffer.filled_append (by omega)
      rw [PathBuffer.pushSegment_of_le (Nat.le_of_not_lt hroom),
        if_neg (not_or.2 ⟨hname, hroom⟩)]
      simp only
      split
      · rw [hfilled, List.append_nil]
      · rw [ih, hfilled, List.append_assoc, List.length_append]

/-- Writing a path adds its bytes to what was written before. -/
theorem filled_writePath (view : View) (paths : PathBuffer) (d : Handle) (limit : Nat) :
    (writePath view paths d limit).paths.filled =
      paths.filled ++ pathBytes limit paths.filled.length (ascent view d) :=
  filled_writeLevels limit paths _

theorem lengthFrom_writePath (view : View) (paths : PathBuffer) (d : Handle) (limit : Nat) :
    (writePath view paths d limit).lengthFrom paths.cursor =
      (pathBytes limit paths.filled.length (ascent view d)).length := by
  rw [WrittenPath.lengthFrom, PathBuffer.cursor_eq_length, PathBuffer.cursor_eq_length,
    filled_writePath, List.length_append, Nat.add_sub_cancel_left]

/-- Whether a part of a path that is written from a position on is missing: a name found no room,
or the entries ended before a boundary. An entry without a name ends the path as well. -/
def cutShort (limit start : Nat) : List Level → Bool
  | [] => true
  | level :: above =>
    if level.name = [] then false
    else if min limit pathBufferSize < start + nameSize then true
    else if level.isBoundary then false
    else cutShort limit (start + (PathBuffer.segment level.name).length) above

theorem truncated_writeLevels (limit : Nat) (paths : PathBuffer) (levels : List Level) :
    (writeLevels limit paths levels).truncated = cutShort limit paths.filled.length levels := by
  induction levels generalizing paths with
  | nil => rfl
  | cons level above ih =>
    rw [writeLevels, cutShort]
    by_cases hname : level.name = []
    · rw [if_pos (by rw [hname]; rfl), if_pos hname]
    rw [if_neg (by rwa [List.isEmpty_iff]), if_neg hname]
    by_cases hroom : min limit pathBufferSize < paths.filled.length + nameSize
    · rw [PathBuffer.pushSegment_of_lt hroom, if_pos hroom]
    · have hlength := PathBuffer.length_segment_le level.name
      rw [PathBuffer.pushSegment_of_le (Nat.le_of_not_lt hroom), if_neg hroom]
      simp only
      split
      · rfl
      · rw [ih, PathBuffer.filled_append (by omega), List.length_append]

theorem truncated_writePath (view : View) (paths : PathBuffer) (d : Handle) (limit : Nat) :
    (writePath view paths d limit).truncated =
      cutShort limit paths.filled.length (ascent view d) :=
  truncated_writeLevels limit paths _

/-! ### Paths that travel with a call -/

/-- What travels with a call is the front of the path, and fits. -/
theorem embed_isPrefix (bytes : Bytes) :
    (embed bytes).1.bytes <+: bytes ∧ (embed bytes).1.bytes.length ≤ wholePathSize := by
  have hkeep : ∀ bytes : Bytes, (WholePath.ofBytes bytes).bytes <+: bytes ∧
      (WholePath.ofBytes bytes).bytes.length ≤ wholePathSize :=
    fun bytes => ⟨List.take_prefix _ _, List.length_take_le _ _⟩
  unfold embed
  split
  · exact hkeep bytes
  · -- dropping from the end leaves a front
    have hfront : ((bytes.take wholePathSize).reverse.dropWhile (· != 0)).reverse <+:
        bytes.take wholePathSize := by
      rw [← List.reverse_suffix, List.reverse_reverse]
      exact List.dropWhile_suffix _
    obtain ⟨hleft, hlength⟩ := hkeep
      ((bytes.take wholePathSize).reverse.dropWhile (· != 0)).reverse
    exact ⟨(hleft.trans hfront).trans (List.take_prefix _ _), hlength⟩

end FsTrace
