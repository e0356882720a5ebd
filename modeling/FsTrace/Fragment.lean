import FsTrace.Bytes
import FsTrace.Location
import FsTrace.Text.Escaped

/-!
# Stored pieces of paths

Two things a path table can hold: one edge of the directory tree, or one whole path.

* `Fragment`: the name of an entry and the location of the directory that contains it. A fragment
  without a parent is a root, or it is detached: the entry was cut off, or a walk ran out of depth;
* `WholePath`: the bytes of one path, leaf first, every name ended by a NUL.
-/

namespace FsTrace

/-- The longest name that is stored, its NUL included. -/
def nameSize : Nat := 255

/-- The most bytes one whole path can have. -/
def wholePathSize : Nat := 4096 + nameSize

/-- An entry's name and the location of the directory that contains it. -/
structure Fragment where
  parent : Location
  field : ByteField nameSize
  deriving DecidableEq

namespace Fragment

/-- The name is cut so that a NUL always follows it. -/
def ofName (parent : Location) (name : Bytes) : Fragment :=
  ⟨parent, .ofBytes nameSize (name.take (nameSize - 1))⟩

/-- The fragment without parent and name, which marks where a chain was cut. -/
def detached : Fragment := ofName .nowhere []

/-- The stored name, up to its first NUL. -/
def name (f : Fragment) : Bytes := f.field.text

/-- Whether the name is that of a root. -/
def isRoot (f : Fragment) : Bool := f.field.first? = some Bytes.slash

/-- Whether the fragment has neither parent nor name. -/
def isDetached (f : Fragment) : Bool := f.parent.isNowhere && f.field.first? = some 0

/-- The fields by name. -/
def describe (f : Fragment) : String :=
  let parent := f.parent.describe
  let name := Text.escapeBytes f.name
  s!"PathFragment \x7b parent: {parent}, name: {name} \x7d"

end Fragment

/-- A path stored whole. -/
structure WholePath where
  bytes : Bytes
  deriving DecidableEq

namespace WholePath

/-- Keeps the bytes that fit. -/
def ofBytes (bytes : Bytes) : WholePath := ⟨bytes.take wholePathSize⟩

/-- The number of bytes. -/
def length (p : WholePath) : Nat := p.bytes.length

/-- The length by name; the bytes are left out. -/
def describe (p : WholePath) : String := s!"SingleFragment \x7b len: {p.length}, .. \x7d"

end WholePath

end FsTrace
