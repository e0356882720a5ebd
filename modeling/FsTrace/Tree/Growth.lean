import FsTrace.Tree

/-!
# Growing trees

A tree is grown under a fresh top directory: `breadth` chains of `depth` directories, each inside
the last, and `files` files scattered over the ends of the chains. Names and places are drawn; two
directories that draw the same name in the same place are one.

* `TreeShape`, `TreeShape.validate`; `Draws`, what was drawn;
* `TreeShape.grow` and its result, `GrownTree`.
-/

namespace FsTrace

/-- The measures of a grown tree. -/
structure TreeShape where
  depth : Nat := 10
  breadth : Nat := 4
  files : Nat := 32
  nameLength : Nat := 8
  deriving DecidableEq

/-- Why no tree can be grown: a measure is zero. -/
structure ShapeError where
  parameter : String
  deriving DecidableEq

/-- The wording of an error. -/
def ShapeError.message (e : ShapeError) : String :=
  "paths generator parameter must be non-zero: `" ++ e.parameter ++ "`"

/-- What is drawn at random while a tree grows. -/
structure Draws where
  /-- The names, in the order in which they are used. -/
  name : Nat → Bytes
  /-- A number for each file, which selects its directory. -/
  place : Nat → Nat

/-- A grown tree. -/
structure GrownTree where
  /-- The directory that contains everything. -/
  top : Handle
  /-- The directories, first the top. -/
  folders : List Handle
  files : List Handle

namespace TreeShape

/-- Refuses a measure that is zero; the first one is named. -/
def validate (s : TreeShape) : Except ShapeError Unit :=
  match [("depth", s.depth), ("breadth", s.breadth), ("files", s.files),
      ("name length", s.nameLength)].find? (·.2 = 0) with
  | some (parameter, _) => .error ⟨parameter⟩
  | none => .ok ()

/-- Grows a chain of directories, each inside the last. -/
def growChain (t : Tree) (dir : Handle) : List Bytes → List Handle × Tree
  | [] => ([], t)
  | name :: names =>
    let (dir, t) := t.makeDir dir name
    let (dirs, t) := growChain t dir names
    (dir :: dirs, t)

/-- Grows chains under one directory, given the names of each. -/
def growChains (t : Tree) (top : Handle) : List (List Bytes) → List (List Handle) × Tree
  | [] => ([], t)
  | names :: rest =>
    let (chain, t) := growChain t top names
    let (chains, t) := growChains t top rest
    (chain :: chains, t)

/-- Grows files, given the directory and the name of each. -/
def growFiles (t : Tree) : List (Handle × Bytes) → List Handle × Tree
  | [] => ([], t)
  | (dir, name) :: rest =>
    let (file, t) := t.makeFile dir name
    let (files, t) := growFiles t rest
    (file :: files, t)

/-- What the name of the top directory starts with. -/
def topStem : Bytes := Bytes.ofString "fsprobe-"

/-- Grows a tree of this shape under the root of `t`. -/
def grow (s : TreeShape) (t : Tree) (draws : Draws) : Except ShapeError (GrownTree × Tree) := do
  s.validate
  let (top, t) := t.makeDir Tree.root (topStem ++ draws.name 0)
  let names := (List.range s.breadth).map fun chain =>
    (List.range s.depth).map fun level => draws.name (1 + chain * s.depth + level)
  let (chains, t) := growChains t top names
  let ends := chains.map fun chain => chain.getLastD top
  let places := (List.range s.files).map fun file =>
    (ends.getD (draws.place file % ends.length) top, draws.name (1 + s.breadth * s.depth + file))
  let (files, t) := growFiles t places
  return (⟨top, top :: chains.flatten, files⟩, t)

end TreeShape

end FsTrace
