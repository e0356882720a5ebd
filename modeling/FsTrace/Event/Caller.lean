import FsTrace.Bytes

/-!
# The task that runs an operation

* `Caller`, with `commandText` and `terminalText` (the two names up to their first NUL) and
  `setCommand`;
* `Caller.threadKey` identifies the calling thread, which has at most one operation in flight.
-/

namespace FsTrace

/-- The size of the two names of a task. -/
def taskNameSize : Nat := 16

/-- Identity of the task that runs an operation. -/
structure Caller where
  pidNamespace : UInt64 := 0
  timestamp : UInt64 := 0
  pid : UInt32 := 0
  tid : UInt32 := 0
  uid : UInt32 := 0
  gid : UInt32 := 0
  terminal : ByteField taskNameSize := .zero taskNameSize
  command : ByteField taskNameSize := .zero taskNameSize
  deriving DecidableEq

namespace Caller

/-- The key of the calling thread: its process in the upper half of `64` bits, itself in the
lower. -/
def threadKey (p : Caller) : Nat := (p.pid.toNat <<< 32) + p.tid.toNat

/-- The command name, up to its first NUL. -/
def commandText (p : Caller) : Bytes := p.command.text

/-- The terminal name, up to its first NUL. -/
def terminalText (p : Caller) : Bytes := p.terminal.text

/-- Sets the command name, cut so that a NUL always follows it. -/
def setCommand (p : Caller) (name : Bytes) : Caller :=
  { p with command := .ofBytes taskNameSize (name.take (taskNameSize - 1)) }

theorem threadKey_eq_iff {p q : Caller} :
    p.threadKey = q.threadKey ↔ p.pid = q.pid ∧ p.tid = q.tid := by
  have hp := p.tid.toNat_lt
  have hq := q.tid.toNat_lt
  simp only [threadKey, ← UInt32.toNat_inj, Nat.shiftLeft_eq]
  omega

end Caller

end FsTrace
