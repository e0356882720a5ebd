import FsTrace.Json
import FsTrace.Probe
import FsTrace.Text.Lossy

/-!
# Records as text

An emission is written as one line: a JSON object, or aligned columns for reading.

* `Emission.split` cuts the path bytes into those of the source and of the target;
* `Emission.json`, `Emission.row`, and `Emission.line` for a `Format`;
* `Writer`, which may have room for a limited number of bytes, and `Writer.emit`, which warns if a
  line does not fit.
-/

namespace FsTrace

namespace Emission

/-- The path bytes of the source and those of the target. -/
def split (e : Emission) : Bytes × Bytes :=
  let rest := e.paths.drop e.event.src.pathLength
  (e.paths.take e.event.src.pathLength, rest.take e.event.target.pathLength)

/-! ### JSON -/

/-- The segments of a path as text, leaf first. -/
def segmentTexts (path : Bytes) : List String := path.segments.map Text.lossy

/-- A path key and the segments are left out if there are none. -/
def endpointJson (e : Endpoint) (path : Bytes) : Json :=
  let segments := segmentTexts path
  .obj <|
    [("inode", .nat e.inode), ("mount_id", .nat e.mount.toNat), ("device", .nat e.device.toNat)]
      ++ (if e.pathKey = 0 then [] else [("path_key", .nat e.pathKey.toNat)])
      ++ [("path_length", .nat e.pathLength)]
      ++ (if segments.isEmpty then [] else [("segments", .arr (segments.map .str))])

/-- The record as one JSON object. The target is left out for kinds that have none. -/
def json (e : Emission) : Json :=
  let event := e.event
  let (src, target) := e.split
  .obj <|
    [("timestamp", .nat event.caller.timestamp.toNat),
      ("pid", .nat event.caller.pid.toNat),
      ("tid", .nat event.caller.tid.toNat),
      ("uid", .nat event.caller.uid.toNat),
      ("gid", .nat event.caller.gid.toNat),
      ("comm", .str (Text.lossy event.caller.commandText)),
      ("kind", .str event.kind.name),
      ("flags", .int event.flags.toInt),
      ("mode", .int event.mode.toInt),
      ("retval", .int event.retval.toInt),
      ("src", endpointJson event.src src)]
      ++ (if event.kind.hasTarget then [("target", endpointJson event.target target)] else [])

/-! ### Columns -/

/-- Fills a column up on the left. -/
def alignRight (width : Nat) (s : String) : String :=
  String.ofList (List.replicate (width - s.length) ' ' ++ s.toList)

/-- Fills a column up on the right. -/
def alignLeft (width : Nat) (s : String) : String :=
  String.ofList (s.toList ++ List.replicate (width - s.length) ' ')

/-- The names of a path, root first, with slashes between them. The root's own slash is not
doubled. -/
def joinNames (names : List (List Char)) : List Char :=
  match (names.intersperse ['/']).flatten with
  | '/' :: '/' :: rest => '/' :: rest
  | joined => joined

/-- A path as it is shown. Where its bytes are not at hand, what it can be found by is shown. -/
def showPath (e : Endpoint) (path : Bytes) : String :=
  if path.isEmpty then
    if e.pathKey = 0 then "inode:" ++ (Location.mk e.inode e.mount).toText
    else "key:0x" ++ Text.hex e.pathKey.toNat
  else String.ofList (joinNames (path.segments.map Text.decodeLossy).reverse)

/-- The columns of a record. -/
def row (e : Emission) : String :=
  let event := e.event
  let (src, target) := e.split
  let columns :=
    [alignRight 16 (toString event.caller.timestamp), alignRight 7 (toString event.caller.pid),
      alignLeft 16 (Text.lossy event.caller.commandText), alignLeft 8 event.kind.name,
      alignRight 4 (toString event.retval), showPath event.src src]
  " ".intercalate columns
    ++ (if event.kind.hasTarget then " -> " ++ showPath event.target target else "")

end Emission

/-- How records are written. -/
inductive Format
  | table
  | json
  | silent
  deriving DecidableEq

namespace Format

/-- The formats, in the order in which they are listed. -/
def all : List Format := [table, json, silent]

/-- The name of a format. -/
def name : Format → String
  | table => "table"
  | json => "json"
  | silent => "none"

/-- The format of a name. -/
def ofName? (name : String) : Option Format := all.find? (·.name == name)

/-- The line that is written for a record, with its newline. -/
def line : Format → Emission → String
  | table, e => e.row ++ "\n"
  | json, e => e.json.text ++ "\n"
  | silent, _ => ""

end Format

/-- A place to write to, which may have room for a limited number of bytes. -/
structure Writer where
  room : Option Nat := none
  written : ByteArray := .empty

namespace Writer

/-- Why a text was not written as a whole. -/
def full : String := "writer is full"

/-- Writes as much of a text as there is room for, and gives whether that was all of it. -/
def write (w : Writer) (text : String) : Bool × Writer :=
  let bytes := text.toUTF8
  match w.room with
  | none => (true, { w with written := w.written ++ bytes })
  | some room =>
    (bytes.size ≤ room,
      { room := some (room - bytes.size), written := w.written ++ bytes.extract 0 room })

/-- Writes the line of a record, with a warning if there was no room for all of it. -/
def emit (w : Writer) (format : Format) (e : Emission) : List Warning × Writer :=
  match w.write (format.line e) with
  | (true, w) => ([], w)
  | (false, w) => ([.writeFailed e.event.kind full], w)

end Writer

end FsTrace
