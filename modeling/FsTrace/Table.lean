import FsTrace.Queue
import Std.Data.HashMap

/-!
# Bounded tables with second chances

A table holds at most `capacity` entries. To let a new key in when it is full, it drops one entry:
keys wait in a queue in the order they came, and the sweep takes the first one that was not used
since it was last passed over. An entry that was used goes to the end of the queue instead, at most
`secondChances` times in one sweep.

* `Entry`: a value, the number of its admission, and whether it was used since;
* `Table.insert` gives the key that had to go, `Table.get` and `Table.contains` count as a use,
  `Table.peek?` does not, `Table.remove` takes an entry out.

Removing an entry leaves its place in the queue behind. The number of its admission tells such a
place from that of a later entry with the same key, and the queue is rid of them when it grows
beyond twice the capacity.
-/

namespace FsTrace

/-- How many used entries one sweep passes over. -/
def secondChances : Nat := 8

/-- What a table keeps for a key. -/
structure Entry (ν : Type) where
  value : ν
  /-- The number of the admission, which only the entry's own place in the queue carries. -/
  admission : Nat
  /-- Whether the entry was used since it came or was last passed over. -/
  used : Bool

/-- A table with at most `capacity` entries. -/
structure Table (κ ν : Type) [BEq κ] [Hashable κ] where
  capacity : Nat
  entries : Std.HashMap κ (Entry ν)
  /-- The keys in the order of the sweep, each with the number of its admission. -/
  queue : Queue (κ × Nat)
  /-- The number of admissions so far. -/
  clock : Nat
  /-- The number of entries dropped by sweeps. -/
  evictions : Nat

namespace Table

variable {κ ν : Type} [BEq κ] [Hashable κ]

/-- An empty table; the least capacity is one. -/
def new (capacity : Nat) : Table κ ν where
  capacity := max capacity 1
  entries := ∅
  queue := .empty
  clock := 0
  evictions := 0

/-- The number of entries. -/
def size (t : Table κ ν) : Nat := t.entries.size

/-- Whether there is no entry. -/
def isEmpty (t : Table κ ν) : Bool := t.entries.isEmpty

/-- The value of a key; this does not count as a use. -/
def peek? (t : Table κ ν) (key : κ) : Option ν := t.entries[key]?.map (·.value)

/-- The value of a key, whose entry is now used. -/
def get (t : Table κ ν) (key : κ) : Option ν × Table κ ν :=
  match t.entries[key]? with
  | some entry =>
    (some entry.value, { t with entries := t.entries.insert key { entry with used := true } })
  | none => (none, t)

/-- Whether a key is present; its entry is now used. -/
def contains (t : Table κ ν) (key : κ) : Bool × Table κ ν :=
  let (value, t) := t.get key
  (value.isSome, t)

/-- Takes the entry of a key out. -/
def remove (t : Table κ ν) (key : κ) : Option ν × Table κ ν :=
  match t.entries[key]? with
  | some entry => (some entry.value, { t with entries := t.entries.erase key })
  | none => (none, t)

/-- The entry that a place in the queue stands for, unless it was removed. -/
def entryAt? (t : Table κ ν) (place : κ × Nat) : Option (Entry ν) :=
  t.entries[place.1]?.filter (·.admission = place.2)

/-- Drops the first entry in the queue that was not used, or the one that comes up after `chances`
used ones. Gives its key, if there was one to drop. -/
def sweep (chances : Nat) (t : Table κ ν) : Option κ × Table κ ν :=
  match _h : t.queue.pop? with
  | none => (none, t)
  | some (place, queue) =>
    match t.entryAt? place, chances with
    | none, chances => sweep chances { t with queue }
    | some ⟨value, admission, true⟩, chances + 1 =>
      sweep chances
        { t with
          queue := queue.push place
          entries := t.entries.insert place.1 ⟨value, admission, false⟩ }
    | some _, _ =>
      (some place.1,
        { t with queue, entries := t.entries.erase place.1, evictions := t.evictions + 1 })
termination_by (chances, t.queue.length)
decreasing_by
  · have := Queue.length_of_pop? _h
    omega
  · omega

/-- Drops an entry if the table is full. One sweep is enough, as a table never holds more entries
than its capacity (`Bounded.sweepWhileFull_eq_makeRoom`). -/
def makeRoom (t : Table κ ν) : Option κ × Table κ ν :=
  if t.size < t.capacity then (none, t) else t.sweep secondChances

/-- Keeps only the places in the queue that stand for an entry. -/
def compact (t : Table κ ν) : Table κ ν :=
  { t with queue := t.queue.filter fun place => (t.entryAt? place).isSome }

/-- Adds an entry for a new key at the end of the queue. -/
def append (t : Table κ ν) (key : κ) (value : ν) : Table κ ν :=
  let clock := t.clock + 1
  let t := { t with
    clock
    entries := t.entries.insert key ⟨value, clock, false⟩
    queue := t.queue.push (key, clock) }
  if t.queue.length > 2 * t.capacity then t.compact else t

/-- Sets the value of a key, and gives the key that had to make room for it. Overwriting the value
of a present key counts as a use. -/
def insert (t : Table κ ν) (key : κ) (value : ν) : Option κ × Table κ ν :=
  match t.entries[key]? with
  | some entry =>
    (none, { t with entries := t.entries.insert key { entry with value, used := true } })
  | none =>
    let (evicted, t) := t.makeRoom
    (evicted, t.append key value)

end Table

end FsTrace
