/-!
# Bytes and fixed-width fields

Names, command names and paths are raw bytes; only a NUL is special, it ends a name.

* `Bytes`, `Bytes.terminated` (what precedes the first NUL), `Bytes.segments` and
  `Bytes.components` (the non-empty pieces between NULs, and between slashes);
* `ByteField n`, a field of exactly `n` bytes, with `zero`, `write` (overwrites from a position on,
  dropping what does not fit), `text` and `trimmed`.
-/

namespace FsTrace

/-- Raw bytes, such as a file name. -/
abbrev Bytes := List UInt8

namespace Bytes

/-- The byte that separates the names of a path, and that the root is named with. -/
def slash : UInt8 := 47

/-- The UTF-8 encoding of a string. -/
def ofString (s : String) : Bytes := s.toUTF8.toList

/-- The bytes before the first NUL, or all of them if there is none. -/
def terminated (bs : Bytes) : Bytes := bs.takeWhile (· != 0)

/-- The bytes without the NULs at the end. -/
def trimmed (bs : Bytes) : Bytes := (bs.reverse.dropWhile (· == 0)).reverse

/-- The pieces between separators. -/
def pieces (separator : UInt8) : Bytes → List Bytes
  | [] => [[]]
  | b :: rest =>
    if b = separator then [] :: pieces separator rest
    else
      match pieces separator rest with
      | [] => [[b]]
      | piece :: later => (b :: piece) :: later

/-- The non-empty pieces between NULs: the names of a path as it is written in a buffer. -/
def segments (bs : Bytes) : List Bytes := (pieces 0 bs).filter (! ·.isEmpty)

/-- The non-empty pieces between slashes: the names of a path as it is shown. -/
def components (bs : Bytes) : List Bytes := (pieces slash bs).filter (! ·.isEmpty)

/-- What follows a NUL does not count. -/
theorem terminated_append_nul (bs rest : Bytes) :
    (bs ++ 0 :: rest).terminated = bs.terminated := by
  unfold terminated
  induction bs with
  | nil => simp
  | cons b bs ih => by_cases hb : b = 0 <;> simp [hb, ih]

theorem terminated_of_notMem {bs : Bytes} (h : 0 ∉ bs) : bs.terminated = bs := by
  unfold terminated
  induction bs with
  | nil => rfl
  | cons b rest ih =>
    obtain ⟨hb, hr⟩ := by simpa using h
    simp [Ne.symm hb, ih hr]

end Bytes

/-- A field of exactly `n` bytes. -/
structure ByteField (n : Nat) where
  bytes : Bytes
  length_bytes : bytes.length = n
  deriving DecidableEq

namespace ByteField

variable {n : Nat}

/-- The field of NULs only. -/
def zero (n : Nat) : ByteField n := ⟨List.replicate n 0, List.length_replicate⟩

/-- Overwrites the field from position `start` on; what does not fit is dropped. -/
def write (field : ByteField n) (start : Nat) (src : Bytes) : ByteField n where
  bytes := field.bytes.take start ++ src.take (n - start) ++ field.bytes.drop (start + src.length)
  length_bytes := by
    simp only [List.length_append, List.length_take, List.length_drop, field.length_bytes]
    omega

/-- A field that starts with `src` and is NUL from there on. -/
def ofBytes (n : Nat) (src : Bytes) : ByteField n := (zero n).write 0 src

/-- The bytes before the first NUL. -/
def text (field : ByteField n) : Bytes := field.bytes.terminated

/-- The field without the NULs at its end. -/
def trimmed (field : ByteField n) : Bytes := field.bytes.trimmed

/-- The first byte of the field. -/
def first? (field : ByteField n) : Option UInt8 := field.bytes.head?

theorem write_of_le (field : ByteField n) {start : Nat} {src : Bytes}
    (h : start + src.length ≤ n) :
    (field.write start src).bytes =
      field.bytes.take start ++ src ++ field.bytes.drop (start + src.length) := by
  simp only [write]
  rw [List.take_of_length_le (i := n - start) (by omega)]

/-- Text that leaves room for a NUL is read back up to its first one. -/
theorem text_ofBytes_eq {src : Bytes} (hlength : src.length < n) :
    (ofBytes n src).text = src.terminated := by
  obtain ⟨k, hk⟩ : ∃ k, n - src.length = k + 1 := ⟨n - src.length - 1, by omega⟩
  rw [text, ofBytes, write_of_le _ (by omega)]
  simp only [zero, List.take_zero, List.nil_append, Nat.zero_add, List.drop_replicate, hk,
    List.replicate_succ]
  exact Bytes.terminated_append_nul _ _

theorem text_ofBytes {src : Bytes} (hlength : src.length < n) (hnul : 0 ∉ src) :
    (ofBytes n src).text = src :=
  (text_ofBytes_eq hlength).trans (Bytes.terminated_of_notMem hnul)

end ByteField

end FsTrace
