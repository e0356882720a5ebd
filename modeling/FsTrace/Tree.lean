import FsTrace.Accessor
import FsTrace.Text.Lossy
import Std.Data.HashMap

/-!
# Directory trees in memory

A tree on a single mount. Entries are known by handles, which are handed out in order and never
used twice, as are inodes. The root is named `/` and is its own parent.

* `Node`, `Tree`, `Tree.new`, `Tree.lookup?`;
* making entries: `makeDir`, `makeDirs`, `makeFile`, `makeNegative` (an entry without an inode, as
  seen by an operation that is about to create it), `instantiate`, `link`;
* moving and removing them: `rename`, `unlink` (the entry stays readable, without an inode),
  `forget` (every later read of the handle fails), `disconnect` (the entry loses its name);
* `Tree.pathOf?`, the path of an entry that is connected to the root; `Tree.accessor`.
-/

namespace FsTrace

/-- An entry of a tree. -/
structure Node where
  name : Bytes
  parent : Handle
  inode : Inode
  deriving DecidableEq

/-- A directory tree. -/
structure Tree where
  nodes : Std.HashMap Handle Node
  /-- The entry that a directory has under a name. -/
  children : Std.HashMap (Handle × Bytes) Handle
  nextHandle : Nat
  nextInode : Inode
  mount : MountId
  device : DeviceId

namespace Tree

/-- The handle of the root. -/
def root : Handle := ⟨1⟩

/-- The inode of the root. -/
def rootInode : Inode := 2

/-- The tree that has only a root. -/
def new (mount : MountId) (device : DeviceId) : Tree where
  nodes := (∅ : Std.HashMap Handle Node).insert root ⟨[Bytes.slash], root, rootInode⟩
  children := ∅
  nextHandle := root.id + 1
  nextInode := rootInode + 1
  mount
  device

/-- The number of entries. -/
def size (t : Tree) : Nat := t.nodes.size

/-- Whether there is no entry. -/
def isEmpty (t : Tree) : Bool := t.nodes.isEmpty

/-- The entry that a directory has under a name. -/
def lookup? (t : Tree) (parent : Handle) (name : Bytes) : Option Handle :=
  t.children[(parent, name)]?

/-! ### Making entries -/

/-- Adds an entry, which takes the place of another of that name. -/
def add (t : Tree) (parent : Handle) (name : Bytes) (inode : Inode) : Handle × Tree :=
  let handle : Handle := ⟨t.nextHandle⟩
  (handle,
    { t with
      nextHandle := t.nextHandle + 1
      nodes := t.nodes.insert handle ⟨name, parent, inode⟩
      children := t.children.insert (parent, name) handle })

/-- Takes the next inode. -/
def drawInode (t : Tree) : Inode × Tree := (t.nextInode, { t with nextInode := t.nextInode + 1 })

/-- Adds a file with an inode of its own. -/
def makeFile (t : Tree) (parent : Handle) (name : Bytes) : Handle × Tree :=
  let (inode, t) := t.drawInode
  t.add parent name inode

/-- Adds a directory, or gives the entry that is already there. -/
def makeDir (t : Tree) (parent : Handle) (name : Bytes) : Handle × Tree :=
  match t.lookup? parent name with
  | some existing => (existing, t)
  | none =>
    let (inode, t) := t.drawInode
    t.add parent name inode

/-- Adds directories, each inside the last one, starting in `dir`. -/
def makeDirsIn (t : Tree) (dir : Handle) : List Bytes → Handle × Tree
  | [] => (dir, t)
  | name :: names =>
    let (dir, t) := t.makeDir dir name
    t.makeDirsIn dir names

/-- Adds the missing directories of an absolute path. -/
def makeDirs (t : Tree) (path : Bytes) : Handle × Tree := t.makeDirsIn root path.components

/-- Adds an entry that has no inode yet. -/
def makeNegative (t : Tree) (parent : Handle) (name : Bytes) : Handle × Tree := t.add parent name 0

/-- Changes the inode of an entry. -/
def setInode (t : Tree) (d : Handle) (node : Node) (inode : Inode) : Tree :=
  { t with nodes := t.nodes.insert d { node with inode } }

/-- Gives an entry a new inode. The inode is used up even if there is no such entry. -/
def instantiate (t : Tree) (d : Handle) : Option Inode × Tree :=
  let (inode, t) := t.drawInode
  match t.nodes[d]? with
  | some node => (some inode, t.setInode d node inode)
  | none => (none, t)

/-- Gives the inode of one entry to another as well. -/
def link (t : Tree) (existing target : Handle) : Option Inode × Tree :=
  match t.nodes[existing]?, t.nodes[target]? with
  | some node, some other => (some node.inode, t.setInode target other node.inode)
  | _, _ => (none, t)

/-! ### Moving and removing entries -/

/-- Takes a name out of a directory, if it is that of `d`. -/
def dropChild (t : Tree) (parent : Handle) (name : Bytes) (d : Handle) : Tree :=
  if t.lookup? parent name = some d then
    { t with children := t.children.erase (parent, name) }
  else t

/-- Moves an entry. An entry that was at the new place is forgotten. -/
def rename (t : Tree) (d parent : Handle) (name : Bytes) : Tree :=
  match t.nodes[d]? with
  | none => t
  | some node =>
    let t := { t with nodes := t.nodes.insert d { node with name, parent } }
    let t := t.dropChild node.parent node.name d
    let replaced := t.lookup? parent name
    let t := { t with children := t.children.insert (parent, name) d }
    match replaced with
    | some other => if other = d then t else { t with nodes := t.nodes.erase other }
    | none => t

/-- Takes an entry out of its directory. It stays readable, without an inode. -/
def unlink (t : Tree) (d : Handle) : Tree :=
  match t.nodes[d]? with
  | none => t
  | some node => (t.setInode d node 0).dropChild node.parent node.name d

/-- Drops an entry. -/
def forget (t : Tree) (d : Handle) : Tree :=
  match t.nodes[d]? with
  | none => t
  | some node => { t with nodes := t.nodes.erase d }.dropChild node.parent node.name d

/-- Takes the name of an entry away. -/
def disconnect (t : Tree) (d : Handle) : Tree :=
  match t.nodes[d]? with
  | none => t
  | some node => { t with nodes := t.nodes.insert d { node with name := [] } }

/-! ### Reading entries -/

/-- The names from `d` up to the root, which is not named, if that takes at most `steps` steps. -/
def namesToRoot? (t : Tree) (d : Handle) (steps : Nat) : Option (List Bytes) :=
  if d = root then some []
  else
    match steps with
    | 0 => none
    | steps + 1 =>
      match t.nodes[d]? with
      | none => none
      | some node =>
        if node.name.isEmpty ∨ node.parent = d then none
        else (t.namesToRoot? node.parent steps).map (node.name :: ·)

/-- Names from the root down as an absolute path. -/
def showPath (names : List Bytes) : String := "/" ++ "/".intercalate (names.map Text.lossy)

/-- The path of an entry, unless it is cut off from the root. -/
def pathOf? (t : Tree) (d : Handle) : Option String :=
  (t.namesToRoot? d (t.size + 1)).map fun names => showPath names.reverse

/-- The reads that a tree answers. -/
def accessor (t : Tree) : Accessor where
  name d size :=
    t.nodes[d]?.map fun node => ⟨node.name.take size, min node.name.length size⟩
  parent d := t.nodes[d]?.map (·.parent)
  inode d := t.nodes[d]?.map (·.inode)
  mount d := t.nodes[d]?.map fun _ => t.mount
  device d := t.nodes[d]?.map fun _ => t.device

end Tree

end FsTrace
