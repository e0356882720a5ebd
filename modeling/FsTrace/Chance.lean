import FsTrace.Resolver
import FsTrace.Tree.Growth

/-!
# Drawing at random

Everything that is drawn comes from one numbered supply, so that a run can be repeated from its
seed.

* `Chance.number`: the supply; the numbers of a seed are its multiples of an odd constant, stirred;
* `Chance.name`: names of letters and digits; `Chance.key`: keys, which are never `0`;
* `Chance.draws`: what a growing tree draws.
-/

namespace FsTrace

/-- The seed of a supply of numbers. -/
structure Chance where
  seed : UInt64

namespace Chance

/-- Stirs the bits of a number; no two numbers become the same. -/
def stir (x : UInt64) : UInt64 :=
  let x := (x ^^^ (x >>> 30)) * 0xBF58476D1CE4E5B9
  let x := (x ^^^ (x >>> 27)) * 0x94D049BB133111EB
  x ^^^ (x >>> 31)

/-- A number of the supply. -/
def number (c : Chance) (n : Nat) : UInt64 :=
  stir (c.seed + n.toUInt64 * 0x9E3779B97F4A7C15)

/-- A supply of its own for each use. -/
def branch (c : Chance) (n : Nat) : Chance := ⟨stir (c.number n)⟩

/-- The letters and digits that names are made of. -/
def alphabet : Bytes :=
  Bytes.ofString "ABCDEFGHIJKLMNOPQRSTUVWXYZabcdefghijklmnopqrstuvwxyz0123456789"

/-- A letter or digit. -/
def letter (c : Chance) (n : Nat) : UInt8 :=
  alphabet.getD ((c.number n).toNat % alphabet.length) 0

/-- A name of the given length. -/
def name (c : Chance) (length : Nat) : Bytes := (List.range length).map c.letter

/-- A key that is not `0`. -/
def key (c : Chance) (n : Nat) : DrawnKey :=
  let key := (c.number n).toUInt32
  if h : key = 0 then ⟨1, by decide⟩ else ⟨key, h⟩

/-- What a tree of the given shape draws while it grows. -/
def draws (c : Chance) (shape : TreeShape) : Draws where
  name n := ((c.branch 0).branch n).name shape.nameLength
  place n := ((c.branch 1).number n).toNat

end Chance

end FsTrace
