/-!
# Kinds of file-system operations

* `Kind`, with its `name`, its `code`, and the readers `ofName?` and `ofCode?`;
* `KindError`, why a name or a code is no kind;
* `KindSet`, a set of kinds with one bit each.
-/

namespace FsTrace

/-- A file-system operation that can be traced. -/
inductive Kind
  | openFile
  | makeDir
  | link
  | rename
  | unlink
  | removeDir
  | modify
  | setAttr
  deriving DecidableEq

/-- Why something is no kind. -/
inductive KindError
  | unknownName
  | unknownCode (code : Nat)
  deriving DecidableEq

/-- The wording of an error. -/
def KindError.message : KindError → String
  | .unknownName => "unknown event kind"
  | .unknownCode code => s!"No discriminant in enum `EventKind` matches the value `{code}`"

namespace Kind

/-- Every kind, in the order of their codes. -/
def all : List Kind :=
  [openFile, makeDir, link, rename, unlink, removeDir, modify, setAttr]

/-- The name used in records and configurations. -/
def name : Kind → String
  | openFile => "open"
  | makeDir => "mkdir"
  | link => "link"
  | rename => "rename"
  | unlink => "unlink"
  | removeDir => "rmdir"
  | modify => "modify"
  | setAttr => "setattr"

/-- The name in camel case. -/
def camelName : Kind → String
  | openFile => "Open"
  | makeDir => "Mkdir"
  | link => "Link"
  | rename => "Rename"
  | unlink => "Unlink"
  | removeDir => "Rmdir"
  | modify => "Modify"
  | setAttr => "SetAttr"

/-- The number of the kind. -/
def code : Kind → Nat
  | openFile => 0
  | makeDir => 1
  | link => 2
  | rename => 3
  | unlink => 4
  | removeDir => 5
  | modify => 6
  | setAttr => 7

/-- Whether the operation has a second entry, its target. -/
def hasTarget (k : Kind) : Bool := k = link ∨ k = rename

/-- The kind of a name. -/
def ofName? (name : String) : Except KindError Kind :=
  match all.find? (·.name == name) with
  | some k => .ok k
  | none => .error .unknownName

/-- The kind of a number. -/
def ofCode? (code : Nat) : Except KindError Kind :=
  match all[code]? with
  | some k => .ok k
  | none => .error (.unknownCode code)

theorem ofCode?_code (k : Kind) : ofCode? k.code = .ok k := by cases k <;> rfl

theorem code_injective {k l : Kind} (h : k.code = l.code) : k = l := by
  have := ofCode?_code k
  rw [h, ofCode?_code] at this
  exact (Except.ok.inj this).symm

end Kind

/-- A set of kinds, one bit for each. -/
structure KindSet where
  bits : Nat
  deriving DecidableEq

namespace KindSet

/-- The set without kinds. -/
def empty : KindSet := ⟨0⟩

/-- Whether a kind is in the set. -/
def contains (s : KindSet) (k : Kind) : Bool := s.bits.testBit k.code

/-- Adds a kind. -/
def insert (s : KindSet) (k : Kind) : KindSet := ⟨s.bits ||| 1 <<< k.code⟩

/-- The set of the kinds in a list. -/
def ofList (ks : List Kind) : KindSet := ks.foldl insert empty

/-- The set of every kind. -/
def all : KindSet := ofList Kind.all

/-- The kinds in the set, in the order of their codes. -/
def toList (s : KindSet) : List Kind := Kind.all.filter s.contains

/-- The set as the number that its bits make. -/
def describe (s : KindSet) : String := s!"EventSet({s.bits})"

@[simp] theorem contains_empty (k : Kind) : empty.contains k = false := Nat.zero_testBit _

@[simp] theorem contains_insert (s : KindSet) (k l : Kind) :
    (s.insert k).contains l = (s.contains l || k = l) := by
  simp only [contains, insert, Nat.testBit_or, Nat.one_shiftLeft, Nat.testBit_two_pow]
  congr 1
  exact decide_eq_decide.2 ⟨Kind.code_injective, fun h => h ▸ rfl⟩

theorem contains_ofList (ks : List Kind) (k : Kind) : (ofList ks).contains k = (k ∈ ks) := by
  have from_any : ∀ s : KindSet, (ks.foldl insert s).contains k = (s.contains k || k ∈ ks) := by
    induction ks with
    | nil => simp
    | cons l ks ih => intro s; simp [ih, Bool.or_assoc, eq_comm]
  simp [ofList, from_any]

end KindSet

end FsTrace
