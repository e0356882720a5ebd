import FsTrace.Accessor
import FsTrace.Event
import FsTrace.Fragment
import FsTrace.Table

/-!
# Operations in flight

* `PathRef`: where the bytes of a resolved path are;
* `PendingCall`: what was captured when an operation started;
* `PendingCalls`: the operations that have started and not returned, by their threads' keys.
-/

namespace FsTrace

/-- Where the bytes of a resolved path are. -/
inductive PathRef
  | unresolved
  /-- In the path buffer, with this many bytes. -/
  | inline (length : Nat)
  /-- Carried along; it was resolved before the operation ran. -/
  | embedded (path : WholePath)
  /-- In the fragment table, from this location on. -/
  | chain (leaf : Location)
  /-- In the table of whole paths, under this key and with this many bytes. -/
  | keyed (key : UInt32) (length : Nat)
  deriving DecidableEq

/-- What was captured when an operation started. -/
structure PendingCall where
  event : Event := {}
  srcEntry : Handle := ⟨0⟩
  targetDir : Handle := ⟨0⟩
  targetEntry : Handle := ⟨0⟩
  srcPath : PathRef := .unresolved
  deriving DecidableEq

/-- A new record, of which only the kind and the task are known. -/
def PendingCall.start (kind : Kind) (caller : Caller) : PendingCall :=
  { event := { kind, caller } }

/-- The operations in flight. -/
abbrev PendingCalls := Table Nat PendingCall

namespace PendingCalls

/-- Stores a call under its thread's key, in place of an earlier one of that thread. Gives the key
of the call that had to make room. -/
def start (calls : PendingCalls) (key : Nat) (call : PendingCall) : Option Nat × PendingCalls :=
  Table.insert calls key call

/-- Takes the call of a thread out. -/
def complete (calls : PendingCalls) (key : Nat) : Option PendingCall × PendingCalls :=
  Table.remove calls key

end PendingCalls

end FsTrace
