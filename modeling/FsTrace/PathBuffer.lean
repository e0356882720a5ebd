import FsTrace.Fragment

/-!
# Path buffers

A path is built in a buffer of fixed size, name after name, each ended by a NUL. The buffer is used
again and again: `reset` only moves the cursor back, and what lies behind the cursor is left over.

* `PathBuffer`, kept as the bytes before the cursor and those from there on; `PathBuffer.filled`:
  what was written since the last reset;
* `pushSegment` writes one name, if a name of any length would fit before the limit;
* `pushBytes` copies bytes that are segments already, as many as fit.
-/

namespace FsTrace

/-- The size of a path buffer. A name that starts in the first `8192` bytes always fits. -/
def pathBufferSize : Nat := 8192 + nameSize

/-- A buffer of fixed size. It is filled up to the cursor; the bytes from there on are left over. -/
structure PathBuffer where
  /-- The bytes before the cursor, last one first. -/
  before : Bytes
  /-- The bytes from the cursor on. -/
  after : Bytes
  cursor : Nat
  cursor_eq : cursor = before.length
  length_eq : before.length + after.length = pathBufferSize

namespace PathBuffer

/-- A buffer that nothing was ever written to. -/
def empty : PathBuffer where
  before := []
  after := List.replicate pathBufferSize 0
  cursor := 0
  cursor_eq := rfl
  length_eq := by simp

/-- Moves the cursor back to the start. -/
def reset (b : PathBuffer) : PathBuffer where
  before := []
  after := b.before.reverse ++ b.after
  cursor := 0
  cursor_eq := rfl
  length_eq := by simpa using b.length_eq

/-- The bytes written since the last reset. -/
def filled (b : PathBuffer) : Bytes := b.before.reverse

/-- The number of bytes from the cursor on. -/
def room (b : PathBuffer) : Nat := pathBufferSize - b.cursor

/-- Writes the bytes that fit at the cursor and moves it behind them. -/
def append (b : PathBuffer) (bytes : Bytes) : PathBuffer where
  before := (bytes.take b.room).reverse ++ b.before
  after := b.after.drop bytes.length
  cursor := b.cursor + (bytes.take b.room).length
  cursor_eq := by
    simp [b.cursor_eq, Nat.add_comm]
  length_eq := by
    have := b.length_eq
    simp only [room, b.cursor_eq, List.length_append, List.length_reverse, List.length_take,
      List.length_drop]
    omega

/-- A name as it is written: cut so that its NUL fits. -/
def segment (name : Bytes) : Bytes := name.take (nameSize - 1) ++ [0]

/-- Writes a name, unless the longest one would not fit before the limit. Gives the number of bytes
written. -/
def pushSegment (b : PathBuffer) (name : Bytes) (limit : Nat) : Option (Nat × PathBuffer) :=
  if b.cursor + nameSize > min limit pathBufferSize then none
  else
    let bytes := segment name
    some (bytes.length, b.append bytes)

/-- Copies the bytes that fit, and gives their number. -/
def pushBytes (b : PathBuffer) (bytes : Bytes) : Nat × PathBuffer :=
  let bytes := bytes.take b.room
  (bytes.length, b.append bytes)

end PathBuffer

end FsTrace
