import FsTrace.Json

/-!
# Statistics

* `Counter`, one of the things a probe counts, and `Counters`, how often each happened;
* `Statistics`: the counters together with those that the path tables keep.
-/

namespace FsTrace

/-- What a probe counts. -/
inductive Counter
  | eventsEmitted
  | filteredOut
  | missingCorrelation
  | pendingEvicted
  | truncatedPaths
  | inodesRegistered
  deriving DecidableEq

/-- How often each counted thing happened. -/
structure Counters where
  eventsEmitted : Nat := 0
  filteredOut : Nat := 0
  missingCorrelation : Nat := 0
  pendingEvicted : Nat := 0
  truncatedPaths : Nat := 0
  inodesRegistered : Nat := 0
  deriving DecidableEq

namespace Counters

/-- The value of a counter. -/
def get (c : Counters) : Counter → Nat
  | .eventsEmitted => c.eventsEmitted
  | .filteredOut => c.filteredOut
  | .missingCorrelation => c.missingCorrelation
  | .pendingEvicted => c.pendingEvicted
  | .truncatedPaths => c.truncatedPaths
  | .inodesRegistered => c.inodesRegistered

/-- Counts one more. -/
def increment (c : Counters) : Counter → Counters
  | .eventsEmitted => { c with eventsEmitted := c.eventsEmitted + 1 }
  | .filteredOut => { c with filteredOut := c.filteredOut + 1 }
  | .missingCorrelation => { c with missingCorrelation := c.missingCorrelation + 1 }
  | .pendingEvicted => { c with pendingEvicted := c.pendingEvicted + 1 }
  | .truncatedPaths => { c with truncatedPaths := c.truncatedPaths + 1 }
  | .inodesRegistered => { c with inodesRegistered := c.inodesRegistered + 1 }

/-- Counts one more if the condition holds. -/
def incrementIf (c : Counters) (condition : Bool) (counter : Counter) : Counters :=
  if condition then c.increment counter else c

theorem get_increment (c : Counters) (k l : Counter) :
    (c.increment k).get l = c.get l + if k = l then 1 else 0 := by
  cases k <;> cases l <;> rfl

theorem get_incrementIf (c : Counters) (condition : Bool) (k l : Counter) :
    (c.incrementIf condition k).get l = c.get l + if k = l then condition.toNat else 0 := by
  cases condition with
  | false => simp [incrementIf]
  | true => simp [incrementIf, get_increment]

end Counters

/-- The counters of a probe and of its path tables, at one point in time. -/
structure Statistics where
  counters : Counters := {}
  fragmentsInserted : Nat := 0
  fragmentsDeduplicated : Nat := 0
  fragmentsEvicted : Nat := 0
  singleFragmentsEvicted : Nat := 0
  deriving DecidableEq

namespace Statistics

/-- The values by name, in the order in which they are reported. -/
def fields (s : Statistics) : List (String × Nat) :=
  [("events_emitted", s.counters.eventsEmitted),
    ("filtered_out", s.counters.filteredOut),
    ("missing_correlation", s.counters.missingCorrelation),
    ("pending_evicted", s.counters.pendingEvicted),
    ("truncated_paths", s.counters.truncatedPaths),
    ("inodes_registered", s.counters.inodesRegistered),
    ("fragments_inserted", s.fragmentsInserted),
    ("fragments_deduplicated", s.fragmentsDeduplicated),
    ("fragments_evicted", s.fragmentsEvicted),
    ("single_fragments_evicted", s.singleFragmentsEvicted)]

/-- The values as one JSON object. -/
def json (s : Statistics) : Json := .obj (s.fields.map fun (name, value) => (name, .nat value))

end Statistics

end FsTrace
