import FsTrace.PathBuffer
import FsTrace.Pending

/-!
# Working memory

Each execution unit has a slot with a pending call and a path buffer. Slots are used again for
every operation of their unit, and `Scratch.prepare` readies one.

* `Scratch`, `ScratchPool`, with `slot` and `setSlot`, which count units modulo the pool's size.
-/

namespace FsTrace

/-- The working memory of one execution unit. -/
structure Scratch where
  pending : PendingCall := {}
  paths : PathBuffer := .empty

/-- Readies a slot for a new operation; nothing of the last one stays. -/
def Scratch.prepare (s : Scratch) (kind : Kind) (caller : Caller) : Scratch where
  pending := .start kind caller
  paths := s.paths.reset

/-- One slot for each execution unit. -/
structure ScratchPool where
  slots : List Scratch
  ne_nil : slots ≠ []

namespace ScratchPool

/-- A pool for this many units, one at least. -/
def new (units : Nat) : ScratchPool where
  slots := List.replicate (max units 1) {}
  ne_nil := by
    rw [ne_eq, List.replicate_eq_nil_iff]
    omega

/-- The number of units. -/
def units (p : ScratchPool) : Nat := p.slots.length

theorem units_pos (p : ScratchPool) : 0 < p.units := List.length_pos_iff.2 p.ne_nil

/-- The slot of a unit. -/
def slot (p : ScratchPool) (unit : Nat) : Scratch :=
  p.slots.get ⟨unit % p.units, Nat.mod_lt _ p.units_pos⟩

/-- Puts back the slot of a unit. -/
def setSlot (p : ScratchPool) (unit : Nat) (s : Scratch) : ScratchPool where
  slots := p.slots.set (unit % p.units) s
  ne_nil := by simpa using p.ne_nil

end ScratchPool

end FsTrace
