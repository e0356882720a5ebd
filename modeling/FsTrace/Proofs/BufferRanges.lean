import FsTrace.Proofs.PathBytes
import Mathlib.Data.List.DropRight
import Mathlib.Data.Nat.PSub

/-!
# Path buffers in memory

A path buffer is kept in two parts, before and behind its cursor, that come with the proof that they
make up the whole. In memory it is one row of bytes and a number, and only the arithmetic of the
requests keeps the number within the row. So here every range, position and difference that a
request takes is checked, and a request that takes one out of range has no outcome.

* `Bytes.slice?`, `Bytes.overwrite?`, `Bytes.set?`: bytes that are read and written where there are
  some;
* `FlatBuffer`, a buffer in memory, with its requests in terms of these, and `FlatBuffer.run?`;
* `PathBuffer.flat`: how a path buffer lies in memory. `pushSegment?_flat` and `pushBytes?_flat`:
  every request has an outcome there, which is that of the path buffer; `run?_flat`: so have any
  requests one after another;
* `Request.written`: what some requests wrote since the last reset, according to their answers;
  `filled_performAll`: this is what a buffer holds;
* `PathBuffer.keeps_written`: what requests to a new buffer leave in it, and how it goes on.
-/

namespace FsTrace

namespace Bytes

variable {front back src : Bytes} {n : Nat}

/-- The bytes from one position up to another, if both are positions in order. -/
def slice? (bs : Bytes) (start stop : Nat) : Option Bytes :=
  if start ≤ stop ∧ stop ≤ bs.length then some ((bs.take stop).drop start) else none

/-- Copies bytes to just as many places between two positions. -/
def overwrite? (bs : Bytes) (start stop : Nat) (src : Bytes) : Option Bytes :=
  if start ≤ stop ∧ stop ≤ bs.length ∧ src.length = stop - start then
    some (bs.take start ++ src ++ bs.drop stop)
  else none

/-- Replaces the byte at a position, if there is one. -/
def set? (bs : Bytes) (position : Nat) (b : UInt8) : Option Bytes :=
  if position < bs.length then some (bs.set position b) else none

theorem slice?_of_le {bs : Bytes} (h : n ≤ bs.length) : bs.slice? 0 n = some (bs.take n) := by
  simp [slice?, h]

/-- As many of the first bytes as there are can always be read. -/
theorem slice?_length_take (bs : Bytes) (n : Nat) :
    bs.slice? 0 (bs.take n).length = some (bs.take n) := by
  rw [List.length_take, slice?_of_le (Nat.min_le_right _ _), ← List.take_eq_take_min]

/-- Bytes that are copied behind others leave these as they are. -/
theorem overwrite?_append (h : src.length ≤ back.length) :
    (front ++ back).overwrite? front.length (front.length + src.length) src =
      some (front ++ src ++ back.drop src.length) := by
  have hstop : front.length + src.length ≤ (front ++ back).length := by simpa using h
  rw [overwrite?, if_pos ⟨Nat.le_add_right _ _, hstop, (Nat.add_sub_cancel_left _ _).symm⟩,
    List.take_left, List.drop_length_add_append]

/-- So does a byte that is replaced there. -/
theorem set?_append (h : 0 < back.length) (b : UInt8) :
    (front ++ back).set? front.length b = some (front ++ b :: back.drop 1) := by
  obtain ⟨first, rest, rfl⟩ := List.exists_cons_of_length_pos h
  have hposition : front.length < (front ++ first :: rest).length := by simp
  rw [set?, if_pos hposition, List.set_append_right _ _ (Nat.le_refl _), Nat.sub_self]
  rfl

end Bytes

/-- What is asked of a path buffer. -/
inductive PathBuffer.Request
  | reset
  | segment (name : Bytes) (limit : Nat)
  | bytes (bytes : Bytes)
  deriving DecidableEq

/-! ### Requests in memory -/

/-- A path buffer as it lies in memory. Nothing says that the cursor is a position of the bytes. -/
structure FlatBuffer where
  bytes : Bytes
  cursor : Nat

namespace FlatBuffer

/-- A buffer that nothing was ever written to. -/
def empty : FlatBuffer := ⟨List.replicate pathBufferSize 0, 0⟩

/-- Moves the cursor back to the start. -/
def reset (b : FlatBuffer) : FlatBuffer := { b with cursor := 0 }

/-- The bytes before the cursor. -/
def filled? (b : FlatBuffer) : Option Bytes := b.bytes.slice? 0 b.cursor

/-- Writes a name and its NUL, unless the longest one would not fit before the limit. -/
def pushSegment? (b : FlatBuffer) (name : Bytes) (limit : Nat) :
    Option (Option Nat × FlatBuffer) :=
  if b.cursor + nameSize > min limit pathBufferSize then some (none, b)
  else do
    let length := min name.length (nameSize - 1)
    let stop := b.cursor + length
    let bytes ← b.bytes.overwrite? b.cursor stop (← name.slice? 0 length)
    let bytes ← bytes.set? stop 0
    some (some (length + 1), ⟨bytes, b.cursor + (length + 1)⟩)

/-- Copies the bytes that fit. -/
def pushBytes? (b : FlatBuffer) (src : Bytes) : Option (Nat × FlatBuffer) := do
  let room ← pathBufferSize.psub b.cursor
  let length := min src.length room
  let bytes ← b.bytes.overwrite? b.cursor (b.cursor + length) (← src.slice? 0 length)
  some (length, ⟨bytes, b.cursor + length⟩)

/-- A buffer answers a request with the number of bytes that it wrote, or refuses it. -/
def perform? (b : FlatBuffer) : PathBuffer.Request → Option (Option Nat × FlatBuffer)
  | .reset => some (some 0, b.reset)
  | .segment name limit => b.pushSegment? name limit
  | .bytes src => (b.pushBytes? src).map fun (written, b) => (some written, b)

/-- The answers to some requests, and the buffer after them. -/
def run? (b : FlatBuffer) :
    List PathBuffer.Request → Option (List (PathBuffer.Request × Option Nat) × FlatBuffer)
  | [] => some ([], b)
  | request :: requests => do
    let (answer, b) ← b.perform? request
    let (answers, b) ← b.run? requests
    some ((request, answer) :: answers, b)

end FlatBuffer

namespace PathBuffer

variable {b b' : PathBuffer} {name bytes : Bytes} {limit n : Nat} {request : Request}

theorem cursor_le (b : PathBuffer) : b.cursor ≤ pathBufferSize := by
  have hlength := b.length_eq
  rw [b.cursor_eq]
  omega

theorem length_after (b : PathBuffer) : b.after.length = b.room := by
  have hlength := b.length_eq
  rw [room, b.cursor_eq]
  omega

/-- How a path buffer lies in memory. -/
def flat (b : PathBuffer) : FlatBuffer := ⟨b.filled ++ b.after, b.cursor⟩

theorem filled?_flat (b : PathBuffer) : b.flat.filled? = some b.filled := by
  have hcursor : b.cursor ≤ (b.filled ++ b.after).length := by simp [cursor_eq_length]
  rw [flat, FlatBuffer.filled?, Bytes.slice?_of_le hcursor, cursor_eq_length, List.take_left]

/-- Bytes that fit take the place of as many behind the cursor. -/
theorem flat_append (h : bytes.length ≤ b.room) :
    (b.append bytes).flat =
      ⟨b.filled ++ bytes ++ b.after.drop bytes.length, b.cursor + bytes.length⟩ := by
  have hfits : b.filled.length + bytes.length ≤ pathBufferSize := by
    have hcursor := b.cursor_le
    rw [room] at h
    rw [← cursor_eq_length]
    omega
  rw [flat, cursor_eq_length, filled_append hfits, List.length_append, ← cursor_eq_length]
  rfl

/-- There is a place behind the cursor for bytes that fit. -/
theorem overwrite?_flat (h : bytes.length ≤ b.room) :
    b.flat.bytes.overwrite? b.cursor (b.cursor + bytes.length) bytes =
      some (b.filled ++ bytes ++ b.after.drop bytes.length) := by
  rw [cursor_eq_length]
  exact Bytes.overwrite?_append (by rwa [length_after])

/-- A name and its NUL find their places in memory, or nothing is written. -/
theorem pushSegment?_flat (b : PathBuffer) (name : Bytes) (limit : Nat) :
    b.flat.pushSegment? name limit =
      some (match b.pushSegment name limit with
        | none => (none, b.flat)
        | some (written, b') => (some written, b'.flat)) := by
  rw [FlatBuffer.pushSegment?, pushSegment, show b.flat.cursor = b.cursor from rfl]
  by_cases hlimit : b.cursor + nameSize > min limit pathBufferSize
  · rw [if_pos hlimit, if_pos hlimit]
  · set kept := name.take (nameSize - 1)
    have hlength : min name.length (nameSize - 1) = kept.length := by
      rw [List.length_take, Nat.min_comm]
    have hname : name.slice? 0 kept.length = some kept := Bytes.slice?_length_take _ _
    have hsegment : (segment name).length = kept.length + 1 := by
      rw [segment, List.length_append, List.length_singleton]
    have hfits : kept.length + 1 ≤ b.room := by
      have hcut : kept.length ≤ nameSize - 1 := List.length_take_le _ _
      simp only [room, nameSize] at hcut hlimit ⊢
      omega
    have hcopy := overwrite?_flat (Nat.le_of_succ_le hfits)
    -- the NUL lands behind the name that was just copied
    have hnul : (b.filled ++ kept ++ b.after.drop kept.length).set? (b.cursor + kept.length) 0 =
        some (b.filled ++ segment name ++ b.after.drop (kept.length + 1)) := by
      rw [cursor_eq_length, ← List.length_append, Bytes.set?_append, List.drop_drop, segment,
        ← List.append_assoc, List.append_assoc _ [0]]
      · rfl
      · rw [List.length_drop, length_after]
        omega
    rw [if_neg hlimit, if_neg hlimit]
    simp only [hlength, hname, hcopy, hnul, Option.bind_eq_bind, Option.bind_some]
    rw [flat_append (by rwa [hsegment]), hsegment]

/-- Bytes find their places in memory as far as there are some. -/
theorem pushBytes?_flat (b : PathBuffer) (bytes : Bytes) :
    b.flat.pushBytes? bytes = some ((b.pushBytes bytes).1, (b.pushBytes bytes).2.flat) := by
  set kept := bytes.take b.room
  have hroom : pathBufferSize.psub b.cursor = some b.room := Nat.psub_eq_sub b.cursor_le
  have hlength : min bytes.length b.room = kept.length := by
    rw [List.length_take, Nat.min_comm]
  have hbytes : bytes.slice? 0 kept.length = some kept := Bytes.slice?_length_take _ _
  have hfits : kept.length ≤ b.room := List.length_take_le _ _
  rw [FlatBuffer.pushBytes?, show b.flat.cursor = b.cursor from rfl]
  simp only [hroom, hlength, hbytes, overwrite?_flat hfits, Option.bind_eq_bind, Option.bind_some]
  rw [pushBytes, flat_append hfits]

/-! ### Any number of requests -/

/-- A buffer answers a request with the number of bytes that it wrote, or refuses it. -/
def perform (b : PathBuffer) : Request → Option Nat × PathBuffer
  | .reset => (some 0, b.reset)
  | .segment name limit =>
    match b.pushSegment name limit with
    | none => (none, b)
    | some (written, b) => (some written, b)
  | .bytes bytes =>
    let (written, b) := b.pushBytes bytes
    (some written, b)

/-- A buffer after some requests. -/
def performAll (b : PathBuffer) (requests : List Request) : PathBuffer :=
  requests.foldl (fun b request => (b.perform request).2) b

/-- Some requests with their answers. -/
def answers (b : PathBuffer) : List Request → List (Request × Option Nat)
  | [] => []
  | request :: requests =>
    (request, (b.perform request).1) :: (b.perform request).2.answers requests

theorem performAll_concat (b : PathBuffer) (requests : List Request) (request : Request) :
    b.performAll (requests ++ [request]) = ((b.performAll requests).perform request).2 := by
  rw [performAll, List.foldl_append]
  rfl

theorem answers_concat (b : PathBuffer) (requests : List Request) (request : Request) :
    b.answers (requests ++ [request]) =
      b.answers requests ++ [(request, ((b.performAll requests).perform request).1)] := by
  induction requests generalizing b with
  | nil => rfl
  | cons first requests ih =>
    rw [List.cons_append, answers, answers, ih, List.cons_append]
    rfl

theorem perform?_flat (b : PathBuffer) (request : Request) :
    b.flat.perform? request = some ((b.perform request).1, (b.perform request).2.flat) := by
  cases request with
  | reset => rfl
  | segment name limit =>
    rw [FlatBuffer.perform?, pushSegment?_flat, perform]
    cases b.pushSegment name limit <;> rfl
  | bytes bytes => rw [FlatBuffer.perform?, pushBytes?_flat, Option.map_some, perform]

/-- In memory, requests have the same answers, and none of them goes out of range. -/
theorem run?_flat (b : PathBuffer) (requests : List Request) :
    b.flat.run? requests = some (b.answers requests, (b.performAll requests).flat) := by
  induction requests generalizing b with
  | nil => rfl
  | cons request requests ih =>
    rw [FlatBuffer.run?, perform?_flat]
    simp only [Option.bind_eq_bind, Option.bind_some, ih]
    rfl

/-- What a request adds to a buffer, given its answer: a name as it is written, or the first ones
of some bytes. -/
def Request.added : Request → Option Nat → Bytes
  | .segment name _, some _ => name.take (nameSize - 1) ++ [0]
  | .bytes bytes, some written => bytes.take written
  | _, _ => []

/-- What some requests wrote since the last reset, according to their answers. -/
def Request.written (answers : List (Request × Option Nat)) : Bytes :=
  (answers.rtakeWhile fun answer => answer.1 != .reset).flatMap fun answer =>
    answer.1.added answer.2

theorem pushSegment_eq_none_iff :
    b.pushSegment name limit = none ↔ min limit pathBufferSize < b.cursor + nameSize := by
  rw [cursor_eq_length]
  constructor
  · intro hnone
    by_contra hroom
    cases hnone.symm.trans (pushSegment_of_le (Nat.le_of_not_lt hroom))
  · exact pushSegment_of_lt

/-- A name that is written is added, and ends by the limit. -/
theorem filled_of_pushSegment (h : b.pushSegment name limit = some (n, b')) :
    b'.filled = b.filled ++ segment name ∧ b'.filled.length ≤ min limit pathBufferSize := by
  have hroom : b.filled.length + nameSize ≤ min limit pathBufferSize := by
    by_contra hfull
    cases h.symm.trans (pushSegment_of_lt (Nat.lt_of_not_le hfull))
  rw [pushSegment_of_le hroom] at h
  obtain rfl := congrArg Prod.snd (Option.some.inj h)
  have hlength := length_segment_le name
  have hadded : (b.append (segment name)).filled = b.filled ++ segment name :=
    filled_append (by omega)
  refine ⟨hadded, ?_⟩
  rw [hadded, List.length_append]
  omega

theorem fst_pushBytes (b : PathBuffer) (bytes : Bytes) :
    (b.pushBytes bytes).1 = min b.room bytes.length := by
  rw [pushBytes, List.length_take]

/-- As many bytes are added as is said. -/
theorem filled_pushBytes (b : PathBuffer) (bytes : Bytes) :
    (b.pushBytes bytes).2.filled = b.filled ++ bytes.take (b.pushBytes bytes).1 := by
  rw [fst_pushBytes, ← List.take_eq_take_min, pushBytes, filled_append_take, List.take_take,
    room, ← cursor_eq_length, min_self]

/-- Unless the buffer starts anew, what it held stays in front. -/
theorem filled_perform (hreset : request ≠ .reset) :
    (b.perform request).2.filled = b.filled ++ request.added (b.perform request).1 := by
  cases request with
  | reset => exact absurd rfl hreset
  | segment name limit =>
    rw [perform]
    cases hwritten : b.pushSegment name limit with
    | none => exact (List.append_nil _).symm
    | some result => exact (filled_of_pushSegment hwritten).1
  | bytes bytes => exact filled_pushBytes b bytes

/-- A buffer holds what was written since the last reset. -/
theorem filled_performAll (requests : List Request) :
    (empty.performAll requests).filled = Request.written (empty.answers requests) := by
  induction requests using List.reverseRecOn with
  | nil => rfl
  | append_singleton requests request ih =>
    rw [performAll_concat, answers_concat, Request.written, List.rtakeWhile_concat]
    by_cases hreset : request = .reset
    · subst hreset
      rfl
    · rw [if_pos (bne_iff_ne.2 hreset), List.flatMap_append, filled_perform hreset, ih,
        List.flatMap_singleton]
      rfl

/-- **What a path buffer keeps.** No request of any sequence to a new buffer goes out of range in
memory, and after them the buffer holds just what their answers say was written since the last
reset. It refuses a name if and only if the longest one would not fit before the limit, and then
stays as it is; a name that it writes ends by the limit. Bytes are dropped only if they fill the
buffer to its end. -/
theorem keeps_written (requests : List Request) :
    let b := empty.performAll requests
    FlatBuffer.empty.run? requests = some (empty.answers requests, b.flat) ∧
      b.flat.filled? = some b.filled ∧ b.flat.cursor ≤ pathBufferSize ∧
      b.filled = Request.written (empty.answers requests) ∧
      (∀ name limit,
        (b.pushSegment name limit = none ↔ min limit pathBufferSize < b.cursor + nameSize) ∧
        (b.pushSegment name limit = none →
          b.flat.perform? (.segment name limit) = some (none, b.flat)) ∧
        ∀ written b', b.pushSegment name limit = some (written, b') →
          b'.cursor ≤ min limit pathBufferSize) ∧
      ∀ bytes, (b.pushBytes bytes).1 < bytes.length →
        (b.pushBytes bytes).2.cursor = pathBufferSize := by
  intro b
  refine ⟨run?_flat empty requests, b.filled?_flat, b.cursor_le, filled_performAll requests,
    fun name limit => ⟨pushSegment_eq_none_iff, fun hnone => ?_, fun written b' hwritten => ?_⟩,
    fun bytes hdropped => ?_⟩
  · rw [FlatBuffer.perform?, pushSegment?_flat, hnone]
  · rw [cursor_eq_length]
    exact (filled_of_pushSegment hwritten).2
  · -- as many bytes were copied as there was room for
    have hcursor := b.cursor_le
    rw [fst_pushBytes, room] at hdropped
    rw [cursor_eq_length, filled_pushBytes, fst_pushBytes, List.length_append, List.length_take,
      ← cursor_eq_length, room]
    omega

/-- A buffer that is nearly full refuses a short name, and has no room for all of some bytes. -/
theorem keeps_written_full :
    let front : Bytes := List.replicate 8300 120
    let more : Bytes := List.replicate 200 121
    let b := empty.performAll [.segment [110] 255, .reset, .bytes front]
    b.filled = front ∧ b.pushSegment [110] 8447 = none ∧
      (b.pushBytes more).1 < more.length ∧ (b.pushBytes more).2.cursor = pathBufferSize := by
  intro front more b
  obtain ⟨-, -, -, hfilled, hnames, hbytes⟩ :=
    keeps_written [.segment [110] 255, .reset, .bytes front]
  have hfront : front.length = 8300 := List.length_replicate
  have hmore : more.length = 200 := List.length_replicate
  have hkept : b.filled = front.take (min pathBufferSize front.length) ++ [] := by
    refine hfilled.trans ?_
    rw [← List.length_take]
    rfl
  rw [List.append_nil, hfront, List.take_of_length_le (by rw [hfront]; decide)] at hkept
  have hcursor : b.cursor = 8300 := by rw [cursor_eq_length, hkept, hfront]
  have hdropped : (b.pushBytes more).1 < more.length := by
    rw [fst_pushBytes, room, hcursor, hmore]
    decide
  refine ⟨hkept, (hnames _ _).1.2 ?_, hdropped, hbytes more hdropped⟩
  show min 8447 pathBufferSize < b.cursor + nameSize
  rw [hcursor]
  decide

end PathBuffer

end FsTrace
