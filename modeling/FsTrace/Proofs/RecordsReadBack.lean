import FsTrace.Proofs.JsonText

/-!
# Records read back from their lines

A record that is written as a line of JSON can be read back from it, whatever bytes its names hold:
all that the line tells of the operation, with the names as they are read as text.

* `EndpointView`, `RecordView`: what a line tells, with `RecordView.ofJson?`, which reads it;
* `Emission.view`: what the line of a record is to tell;
* `Emission.ofJson?_json`: it does;
* `Emission.json_lines_read_back`: so a text of such lines gives the records, one for each line.
-/

namespace FsTrace

/-! ### Reading values -/

namespace Json

variable {α : Type} {ofInt : Int → α} {toInt : α → Int}

/-- The fields of an object, in which no name is given twice. -/
def object? : Json → Option (List (String × Json))
  | .obj fields => if (fields.map Prod.fst).Nodup then some fields else none
  | _ => none

def text? : Json → Option String
  | .str value => some value
  | _ => none

def texts? : Json → Option (List String)
  | .arr items => items.mapM text?
  | _ => none

/-- A number of a type of integers, unless it is out of the range of the type. -/
def number? (ofInt : Int → α) (toInt : α → Int) : Json → Option α
  | .int n => if toInt (ofInt n) = n then some (ofInt n) else none
  | _ => none

def nat? : Json → Option Nat := number? Int.toNat Int.ofNat

def uint32? : Json → Option UInt32 := number? (fun n => .ofNat n.toNat) fun x => x.toNat

def uint64? : Json → Option UInt64 := number? (fun n => .ofNat n.toNat) fun x => x.toNat

def int32? : Json → Option Int32 := number? .ofInt Int32.toInt

def int64? : Json → Option Int64 := number? .ofInt Int64.toInt

theorem number?_int (a : α) (h : ofInt (toInt a) = a) :
    number? ofInt toInt (.int (toInt a)) = some a := by
  rw [number?, h, if_pos rfl]

@[simp] theorem nat?_nat (n : Nat) : nat? (.nat n) = some n := number?_int n rfl

@[simp] theorem uint32?_nat (n : UInt32) : uint32? (.nat n.toNat) = some n :=
  number?_int n (by simp)

@[simp] theorem uint64?_nat (n : UInt64) : uint64? (.nat n.toNat) = some n :=
  number?_int n (by simp)

@[simp] theorem int32?_int (n : Int32) : int32? (.int n.toInt) = some n :=
  number?_int n (by simp)

@[simp] theorem int64?_int (n : Int64) : int64? (.int n.toInt) = some n :=
  number?_int n (by simp)

@[simp] theorem texts?_arr (texts : List String) :
    texts? (.arr (texts.map .str)) = some texts := by
  rw [texts?]
  induction texts with
  | nil => rfl
  | cons text texts ih => simp [List.mapM_cons, ih, text?]

end Json

/-! ### Views of records -/

/-- What a record tells of an entry that takes part. -/
structure EndpointView where
  inode : Inode
  mount : MountId
  device : DeviceId
  pathKey : UInt32
  pathLength : Nat
  /-- The names of the path, leaf first. -/
  segments : List String

/-- What a record tells of an operation. -/
structure RecordView where
  timestamp : UInt64
  pid : UInt32
  tid : UInt32
  uid : UInt32
  gid : UInt32
  command : String
  kind : Kind
  flags : Int32
  mode : Int32
  retval : Int64
  src : EndpointView
  target : Option EndpointView

/-- Reads what an object tells of an entry. A key that is left out is `0`, and there are no segments
if they are left out. -/
def EndpointView.ofJson? (j : Json) : Option EndpointView := do
  let fields ← j.object?
  return {
    inode := ← (fields.lookup "inode").bind Json.nat?
    mount := ← (fields.lookup "mount_id").bind Json.uint32?
    device := ← (fields.lookup "device").bind Json.uint32?
    pathKey := ← (fields.lookup "path_key").elim (some 0) Json.uint32?
    pathLength := ← (fields.lookup "path_length").bind Json.nat?
    segments := ← (fields.lookup "segments").elim (some []) Json.texts? }

/-- Reads what an object tells of an operation. -/
def RecordView.ofJson? (j : Json) : Option RecordView := do
  let fields ← j.object?
  return {
    timestamp := ← (fields.lookup "timestamp").bind Json.uint64?
    pid := ← (fields.lookup "pid").bind Json.uint32?
    tid := ← (fields.lookup "tid").bind Json.uint32?
    uid := ← (fields.lookup "uid").bind Json.uint32?
    gid := ← (fields.lookup "gid").bind Json.uint32?
    command := ← (fields.lookup "comm").bind Json.text?
    kind := ← ((fields.lookup "kind").bind Json.text?).bind fun name => (Kind.ofName? name).toOption
    flags := ← (fields.lookup "flags").bind Json.int32?
    mode := ← (fields.lookup "mode").bind Json.int32?
    retval := ← (fields.lookup "retval").bind Json.int64?
    src := ← (fields.lookup "src").bind EndpointView.ofJson?
    target := ← (fields.lookup "target").elim (some none) fun target =>
      (EndpointView.ofJson? target).map some }

/-- What a record tells of an entry, given the bytes of its path. -/
def Endpoint.view (e : Endpoint) (path : Bytes) : EndpointView where
  inode := e.inode
  mount := e.mount
  device := e.device
  pathKey := e.pathKey
  pathLength := e.pathLength
  segments := (Bytes.segments path).map Text.lossy

theorem Kind.ofName?_name (k : Kind) : Kind.ofName? k.name = .ok k := by
  cases k <;> rfl

namespace Emission

/-- What a record tells of its operation. The bytes that follow it are first those of the source's
path and then those of the target's, as far as there are as many. -/
def view (e : Emission) : RecordView where
  timestamp := e.event.caller.timestamp
  pid := e.event.caller.pid
  tid := e.event.caller.tid
  uid := e.event.caller.uid
  gid := e.event.caller.gid
  command := Text.lossy e.event.caller.commandText
  kind := e.event.kind
  flags := e.event.flags
  mode := e.event.mode
  retval := e.event.retval
  src := e.event.src.view (e.paths.take e.event.src.pathLength)
  target :=
    if e.event.kind = .link ∨ e.event.kind = .rename then
      some (e.event.target.view
        ((e.paths.drop e.event.src.pathLength).take e.event.target.pathLength))
    else none

/-! ### Reading what was written -/

/-- The fields of the object of an entry. -/
def endpointFields (e : Endpoint) (path : Bytes) : List (String × Json) :=
  [("inode", .nat e.inode), ("mount_id", .nat e.mount.toNat), ("device", .nat e.device.toNat)]
    ++ (if e.pathKey = 0 then [] else [("path_key", Json.nat e.pathKey.toNat)])
    ++ [("path_length", .nat e.pathLength)]
    ++ (if (segmentTexts path).isEmpty then []
      else [("segments", Json.arr ((segmentTexts path).map Json.str))])

/-- No two fields of an entry have the same name. -/
theorem object?_endpointJson (e : Endpoint) (path : Bytes) :
    (endpointJson e path).object? = some (endpointFields e path) := by
  have hnames : ((endpointFields e path).map Prod.fst).Nodup := by
    rw [endpointFields]
    split <;> split <;> simp
  exact if_pos hnames

/-- The object of an entry tells what it is to tell. -/
theorem ofJson?_endpointJson (e : Endpoint) (path : Bytes) :
    EndpointView.ofJson? (endpointJson e path) = some (e.view path) := by
  have hinode : ((endpointFields e path).lookup "inode").bind Json.nat? = some e.inode :=
    Json.nat?_nat _
  have hmount : ((endpointFields e path).lookup "mount_id").bind Json.uint32? = some e.mount :=
    Json.uint32?_nat _
  have hdevice : ((endpointFields e path).lookup "device").bind Json.uint32? = some e.device :=
    Json.uint32?_nat _
  have hkey : ((endpointFields e path).lookup "path_key").elim (some 0) Json.uint32? =
      some e.pathKey := by
    rw [endpointFields]
    split
    · next hzero =>
      rw [hzero]
      split <;> rfl
    · exact Json.uint32?_nat _
  have hlength : ((endpointFields e path).lookup "path_length").bind Json.nat? =
      some e.pathLength := by
    rw [endpointFields]
    split <;> exact Json.nat?_nat _
  have hsegments : ((endpointFields e path).lookup "segments").elim (some []) Json.texts? =
      some ((Bytes.segments path).map Text.lossy) := by
    by_cases hempty : (segmentTexts path).isEmpty = true
    · have hnone : (Bytes.segments path).map Text.lossy = [] := List.isEmpty_iff.1 hempty
      rw [endpointFields, if_pos hempty, hnone]
      split <;> rfl
    · rw [endpointFields, if_neg hempty]
      split <;> exact Json.texts?_arr _
  rw [EndpointView.ofJson?, object?_endpointJson, Option.bind_eq_bind, Option.bind_some, hinode,
    hmount, hdevice, hkey, hlength, hsegments]
  rfl

/-- The fields of the object of a record. -/
def fields (e : Emission) : List (String × Json) :=
  [("timestamp", .nat e.event.caller.timestamp.toNat),
    ("pid", .nat e.event.caller.pid.toNat),
    ("tid", .nat e.event.caller.tid.toNat),
    ("uid", .nat e.event.caller.uid.toNat),
    ("gid", .nat e.event.caller.gid.toNat),
    ("comm", .str (Text.lossy e.event.caller.commandText)),
    ("kind", .str e.event.kind.name),
    ("flags", .int e.event.flags.toInt),
    ("mode", .int e.event.mode.toInt),
    ("retval", .int e.event.retval.toInt),
    ("src", endpointJson e.event.src e.split.1)]
    ++ (if e.event.kind.hasTarget then [("target", endpointJson e.event.target e.split.2)] else [])

/-- No two fields of a record have the same name. -/
theorem object?_json (e : Emission) : e.json.object? = some e.fields := by
  have hnames : (e.fields.map Prod.fst).Nodup := by
    rw [fields]
    split
    · show ["timestamp", "pid", "tid", "uid", "gid", "comm", "kind", "flags", "mode", "retval",
        "src", "target"].Nodup
      decide
    · show ["timestamp", "pid", "tid", "uid", "gid", "comm", "kind", "flags", "mode", "retval",
        "src"].Nodup
      decide
  exact if_pos hnames

theorem lookup_target (e : Emission) :
    (e.fields.lookup "target").elim (some none)
      (fun target => (EndpointView.ofJson? target).map some) = some e.view.target := by
  rw [fields, view]
  by_cases htarget : e.event.kind = .link ∨ e.event.kind = .rename
  · have hkind : e.event.kind.hasTarget = true := decide_eq_true htarget
    rw [if_pos hkind, if_pos htarget]
    exact congrArg (Option.map some) (ofJson?_endpointJson _ _)
  · have hkind : ¬ e.event.kind.hasTarget = true := fun h => htarget (of_decide_eq_true h)
    rw [if_neg hkind, if_neg htarget]
    rfl

/-- The object of a record tells what it is to tell. -/
theorem ofJson?_json (e : Emission) : RecordView.ofJson? e.json = some e.view := by
  have htimestamp : (e.fields.lookup "timestamp").bind Json.uint64? =
      some e.event.caller.timestamp := Json.uint64?_nat _
  have hpid : (e.fields.lookup "pid").bind Json.uint32? = some e.event.caller.pid :=
    Json.uint32?_nat _
  have htid : (e.fields.lookup "tid").bind Json.uint32? = some e.event.caller.tid :=
    Json.uint32?_nat _
  have huid : (e.fields.lookup "uid").bind Json.uint32? = some e.event.caller.uid :=
    Json.uint32?_nat _
  have hgid : (e.fields.lookup "gid").bind Json.uint32? = some e.event.caller.gid :=
    Json.uint32?_nat _
  have hcommand : (e.fields.lookup "comm").bind Json.text? =
      some (Text.lossy e.event.caller.commandText) := rfl
  have hkind : ((e.fields.lookup "kind").bind Json.text?).bind
      (fun name => (Kind.ofName? name).toOption) = some e.event.kind :=
    congrArg Except.toOption e.event.kind.ofName?_name
  have hflags : (e.fields.lookup "flags").bind Json.int32? = some e.event.flags :=
    Json.int32?_int _
  have hmode : (e.fields.lookup "mode").bind Json.int32? = some e.event.mode := Json.int32?_int _
  have hretval : (e.fields.lookup "retval").bind Json.int64? = some e.event.retval :=
    Json.int64?_int _
  have hsrc : (e.fields.lookup "src").bind EndpointView.ofJson? = some e.view.src :=
    ofJson?_endpointJson _ _
  rw [RecordView.ofJson?, object?_json, Option.bind_eq_bind, Option.bind_some, htimestamp, hpid,
    htid, huid, hgid, hcommand, hkind, hflags, hmode, hretval, hsrc, lookup_target]
  rfl

/-! ### Lines -/

theorem toList_json (es : List Emission) :
    (Format.json.text es).toList = (es.map (·.json.render)).flatMap (· ++ ['\n']) := by
  refine Format.toList_text (fun e => String.toList_append.trans ?_) es
  rw [Json.text, String.toList_ofList]
  rfl

/-- **Records are read back from lines of JSON.** Some records are written as JSON, to where there
is room for all of them. The text is cut at its newlines into one line for each record, in their
order; and each line is read as one object, which tells of the record what it is to tell: whatever
bytes the command and the paths hold, and however long the record says that the paths are. -/
theorem json_lines_read_back (es : List Emission) :
    ∃ (text : String) (lines : List (List Char)),
      (Writer.emitAll {} .json es).written = text.toUTF8 ∧
      text.toList.splitOn '\n' = lines ++ [[]] ∧ (∀ line ∈ lines, '\n' ∉ line) ∧
      lines.map (fun line => (Json.read? line).bind RecordView.ofJson?) =
        es.map fun e => some e.view := by
  have hlines : ∀ line ∈ es.map (·.json.render), '\n' ∉ line :=
    List.forall_mem_map.2 fun e _ => e.json.newline_notMem_render
  refine ⟨_, es.map (·.json.render), Writer.written_emitAll_empty .json es, ?_, hlines, ?_⟩
  · rw [toList_json]
    exact splitOn_lines_iff.2 hlines
  · rw [List.map_map]
    refine List.map_congr_left fun e _ => ?_
    rw [Function.comp_apply, Json.read?_render, Option.bind_some, ofJson?_json]

end Emission

end FsTrace
