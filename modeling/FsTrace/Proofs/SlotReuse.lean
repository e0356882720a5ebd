import FsTrace.Proofs.ParkedCalls

/-!
# Slots that are used again

A handler works in the slot of its execution unit, where the operation before it left a call, some
bytes and a cursor. The start of an operation fills the call that it finds there, so a key or a
length that was left behind would come with it, were the slot not readied first. Nothing of what is
left behind shows in what a probe gives or keeps.

* `Scratch.prepare_congr`: slots that were readied for the same operation hold the same;
* `Probe.Alike`: two probes differ in their slots at most; `Step.Alike`: two calls differ in their
  execution unit at most;
* `SameWork`: work in two buffers came to the same, but for what is left over behind the cursors;
* `Probe.Alike.enter`, `Probe.Alike.exit`: alike calls keep probes alike, and give the same records;
* `Probe.sights_eq`: all that can be seen of two runs of alike calls is the same at every step.
-/

namespace FsTrace

/-- Two probes differ in their slots at most: in how many there are and in what they hold. -/
structure Probe.Alike (p q : Probe) : Prop where
  modes_eq : p.modes = q.modes
  pending_eq : p.pending = q.pending
  watched_eq : p.watched = q.watched
  resolver_eq : p.resolver = q.resolver
  counters_eq : p.counters = q.counters

/-- The same call, on whichever execution units. -/
inductive Step.Alike : Step → Step → Prop
  | enter (s : Surroundings) (unit unit' : Nat) (caller : Caller) (args : Arguments) :
    Alike (.enter s ⟨unit, caller⟩ args) (.enter s ⟨unit', caller⟩ args)
  | exit (s : Surroundings) (unit unit' : Nat) (caller : Caller) (retval : Int64) :
    Alike (.exit s ⟨unit, caller⟩ retval) (.exit s ⟨unit', caller⟩ retval)
  | watch (inode : Inode) : Alike (.watch inode) (.watch inode)

/-- Two pieces of work gave the same, wrote the same into their buffers, and left probes that are
alike. -/
structure SameWork {α : Type} (r r' : α × PathBuffer × Probe) : Prop where
  fst_eq : r.1 = r'.1
  filled_eq : r.2.1.filled = r'.2.1.filled
  alike : r.2.2.Alike r'.2.2

/-! ### Slots and buffers -/

/-- Slots that were readied for the same operation hold the same call and the same bytes, whatever
they held before. -/
theorem Scratch.prepare_congr (slot slot' : Scratch) (kind : Kind) (caller : Caller) :
    (slot.prepare kind caller).pending = (slot'.prepare kind caller).pending ∧
      (slot.prepare kind caller).paths.filled = (slot'.prepare kind caller).paths.filled :=
  ⟨rfl, rfl⟩

namespace Resolver

variable {r : Resolver} {view : View} {drawn : DrawnKey} {paths paths' : PathBuffer} {d : Handle}
  {leaf : Location}

theorem truncated_resolve (h : paths.filled = paths'.filled) :
    (r.resolve view drawn paths d leaf).truncated =
      (r.resolve view drawn paths' d leaf).truncated := by
  cases r with
  | inlineBuffer =>
    show (writePath _ _ _ _).truncated = (writePath _ _ _ _).truncated
    rw [truncated_writePath, truncated_writePath, h]
  | fragmentStore s => rfl
  | singleFragment t =>
    show (writePath _ _ _ _).truncated = (writePath _ _ _ _).truncated
    rw [truncated_writePath, truncated_writePath]
    rfl

theorem resolver_resolve :
    (r.resolve view drawn paths d leaf).resolver =
      (r.resolve view drawn paths' d leaf).resolver := by
  cases r with
  | inlineBuffer => rfl
  | fragmentStore s => rfl
  | singleFragment t => rw [resolve_singleFragment, resolve_singleFragment]

theorem filled_resolve_congr (h : paths.filled = paths'.filled) :
    (r.resolve view drawn paths d leaf).paths.filled =
      (r.resolve view drawn paths' d leaf).paths.filled := by
  cases r with
  | inlineBuffer =>
    show (writePath _ _ _ _).paths.filled = (writePath _ _ _ _).paths.filled
    rw [filled_writePath, filled_writePath, h]
  | fragmentStore s => exact h
  | singleFragment t => rfl

end Resolver

theorem PathBuffer.filled_append_congr {b b' : PathBuffer} (h : b.filled = b'.filled)
    (bytes : Bytes) : (b.append bytes).filled = (b'.append bytes).filled := by
  rw [filled_append_take, filled_append_take, h]

theorem PathBuffer.pushBytes_congr {b b' : PathBuffer} (h : b.filled = b'.filled)
    (bytes : Bytes) :
    (b.pushBytes bytes).1 = (b'.pushBytes bytes).1 ∧
      (b.pushBytes bytes).2.filled = (b'.pushBytes bytes).2.filled := by
  have hroom : b.room = b'.room := by
    rw [room, room, cursor_eq_length, cursor_eq_length, h]
  rw [pushBytes, pushBytes, hroom]
  exact ⟨rfl, filled_append_congr h _⟩

/-! ### Handlers -/

namespace Probe

variable {p q : Probe} {s : Surroundings} {i i' : Invocation} {args : Arguments} {retval : Int64}
  {call : PendingCall} {paths paths' : PathBuffer} {step step' : Step}

namespace Alike

/-- Alike probes are one probe with two sets of slots. -/
theorem exists_scratch (h : p.Alike q) : ∃ scratch, q = { p with scratch } := by
  obtain ⟨modes, scratch, pending, watched, resolver, counters⟩ := q
  obtain ⟨rfl, rfl, rfl, rfl, rfl⟩ := h
  exact ⟨scratch, rfl⟩

theorem setSlots (h : p.Alike q) (scratch scratch' : ScratchPool) :
    Alike { p with scratch } { q with scratch := scratch' } :=
  ⟨h.modes_eq, h.pending_eq, h.watched_eq, h.resolver_eq, h.counters_eq⟩

theorem countIf (h : p.Alike q) {condition condition' : Bool} (hcondition : condition = condition')
    (counter : Counter) : (p.countIf condition counter).Alike (q.countIf condition' counter) := by
  obtain ⟨scratch, rfl⟩ := h.exists_scratch
  subst hcondition
  exact ⟨rfl, rfl, rfl, rfl, rfl⟩

theorem resolve (h : p.Alike q) (hpaths : paths.filled = paths'.filled) (view : View)
    (drawn : DrawnKey) (d : Handle) (leaf : Location) :
    SameWork (p.resolve view drawn paths d leaf) (q.resolve view drawn paths' d leaf) := by
  obtain ⟨scratch, rfl⟩ := h.exists_scratch
  refine ⟨?_, Resolver.filled_resolve_congr hpaths, countIf ?_ ?_ _⟩
  · show (p.resolver.resolve _ _ _ _ _).path = (p.resolver.resolve _ _ _ _ _).path
    rw [Resolver.path_resolve, Resolver.path_resolve, hpaths]
  · exact ⟨rfl, rfl, rfl, Resolver.resolver_resolve, rfl⟩
  · exact Resolver.truncated_resolve hpaths

theorem inScope (h : p.Alike q) (a : Accessor) (call : PendingCall) :
    (p.inScope a call).1 = (q.inScope a call).1 ∧
      (p.inScope a call).2.Alike (q.inScope a call).2 := by
  obtain ⟨scratch, rfl⟩ := h.exists_scratch
  unfold Probe.inScope
  simp only
  split
  · exact ⟨rfl, rfl, rfl, rfl, rfl, rfl⟩
  · split <;> exact ⟨rfl, rfl, rfl, rfl, rfl, rfl⟩

/-- The source of a rename is resolved in a buffer that holds nothing yet. -/
theorem resolveRenameSource (h : p.Alike q) (hpaths : paths.filled = paths'.filled)
    (s : Surroundings) (call : PendingCall) :
    SameWork (p.resolveRenameSource s paths call) (q.resolveRenameSource s paths' call) := by
  unfold Probe.resolveRenameSource
  rw [← h.modes_eq]
  generalize (if p.modes.resolution = .fragmentStore then
    { call with event.src.pathKey := (s.drawn 0).key } else call) = call'
  have hwork := h.resolve hpaths s.view (s.drawn 0) call'.srcEntry call'.event.srcLocation
  simp only
  generalize p.resolve s.view (s.drawn 0) paths call'.srcEntry call'.event.srcLocation = r
    at hwork
  generalize q.resolve s.view (s.drawn 0) paths' call'.srcEntry call'.event.srcLocation = r'
    at hwork
  obtain ⟨path, paths, p⟩ := r
  obtain ⟨path', paths', q⟩ := r'
  obtain ⟨rfl, hfilled, halike⟩ := hwork
  simp only at hfilled halike
  cases path with
  | inline length =>
    simp only [hfilled]
    exact ⟨rfl, rfl, halike.countIf rfl _⟩
  | _ => exact ⟨rfl, rfl, halike⟩

theorem park (h : p.Alike q) (key : Nat) (call : PendingCall) :
    (p.park key call).Alike (q.park key call) := by
  obtain ⟨scratch, rfl⟩ := h.exists_scratch
  exact ⟨rfl, rfl, rfl, rfl, rfl⟩

/-- The start of an operation readies its slot before it fills it. -/
theorem enter (h : p.Alike q) (hcaller : i.caller = i'.caller) :
    (p.enter s i args).Alike (q.enter s i' args) := by
  unfold Probe.enter
  rw [← h.modes_eq, ← hcaller]
  split
  · obtain ⟨hcall, hpaths⟩ := Scratch.prepare_congr (p.scratch.slot i.unit)
      (q.scratch.slot i'.unit) args.kind i.caller
    simp only
    generalize (p.scratch.slot i.unit).prepare args.kind i.caller = slot at hcall hpaths
    generalize (q.scratch.slot i'.unit).prepare args.kind i.caller = slot' at hcall hpaths
    -- both handlers go on with one call, and with buffers that hold the same
    rw [← hcall]
    generalize args.capture (s.view 0) slot.pending = call
    obtain ⟨hfound, halike⟩ := h.inScope (s.view 1) call
    generalize p.inScope (s.view 1) call = r at hfound halike
    generalize q.inScope (s.view 1) call = r' at hfound halike
    obtain ⟨found, p⟩ := r
    obtain ⟨found', q⟩ := r'
    obtain rfl : found = found' := hfound
    cases found with
    | false => exact (halike.setSlots _ _).countIf rfl _
    | true =>
      simp only
      split
      · have hwork := halike.resolveRenameSource hpaths { s with view := s.view.later 2 } call
        rw [hwork.fst_eq]
        exact (hwork.alike.setSlots _ _).park _ _
      · exact (halike.setSlots _ _).park _ _
  · exact h

theorem sourcePath (h : p.Alike q) (hpaths : paths.filled = paths'.filled) (s : Surroundings)
    (call : PendingCall) :
    SameWork (p.sourcePath s paths call) (q.sourcePath s paths' call) := by
  unfold Probe.sourcePath
  split
  · exact h.resolve hpaths _ _ _ _
  · next path _ =>
    obtain ⟨hlength, hfilled⟩ := PathBuffer.pushBytes_congr hpaths path.bytes
    exact ⟨congrArg PathRef.inline hlength, hfilled, h⟩
  · exact ⟨rfl, hpaths, h⟩

theorem forget (h : p.Alike q) (condition : Prop) [Decidable condition] (leaf : Location) :
    (if condition then { p with resolver := p.resolver.forget leaf } else p).Alike
      (if condition then { q with resolver := q.resolver.forget leaf } else q) := by
  split
  · exact ⟨h.modes_eq, h.pending_eq, h.watched_eq,
      congrArg (Resolver.forget leaf) h.resolver_eq, h.counters_eq⟩
  · exact h

theorem targetPath (h : p.Alike q) (hpaths : paths.filled = paths'.filled) (s : Surroundings)
    (call : PendingCall) :
    SameWork (p.targetPath s paths call) (q.targetPath s paths' call) := by
  have hforgot := h.forget (call.event.kind = .rename) call.event.targetLocation
  unfold Probe.targetPath
  simp only
  split
  · exact hforgot.resolve hpaths _ _ _ _
  · exact ⟨rfl, hpaths, hforgot⟩

theorem watch (h : p.Alike q) (inode : Inode) :
    (p.watch inode).1 = (q.watch inode).1 ∧ (p.watch inode).2.Alike (q.watch inode).2 := by
  obtain ⟨scratch, rfl⟩ := h.exists_scratch
  exact ⟨rfl, rfl, rfl, rfl, rfl, rfl⟩

theorem registerFollowup (h : p.Alike q) (event : Event) :
    (p.registerFollowup event).Alike (q.registerFollowup event) := by
  unfold Probe.registerFollowup
  rw [← h.modes_eq]
  simp only
  split
  · next inode _ =>
    split
    · obtain ⟨hadded, halike⟩ := h.watch inode
      exact halike.countIf hadded _
    · exact h
  · exact h

/-- The return of an operation empties the buffer of its slot before it uses it. -/
theorem finish (h : p.Alike q) (s : Surroundings) (retval : Int64) (call : PendingCall) :
    (p.finish s i retval call).1 = (q.finish s i' retval call).1 ∧
      (p.finish s i retval call).2.Alike (q.finish s i' retval call).2 := by
  unfold Probe.finish
  generalize readOutcome (s.view 0) retval call = call
  generalize { s with view := s.view.later 1 } = s
  simp only
  have hslot : (p.scratch.slot i.unit).paths.reset.filled =
      (q.scratch.slot i'.unit).paths.reset.filled := rfl
  have hsource := h.sourcePath hslot s call
  have htarget := fun call => hsource.alike.targetPath hsource.filled_eq s call
  rw [hsource.fst_eq, (htarget _).fst_eq, (htarget _).filled_eq]
  exact ⟨rfl, (((htarget _).alike.setSlots _ _).registerFollowup _).countIf rfl _⟩

theorem exit (h : p.Alike q) (hcaller : i.caller = i'.caller) :
    (p.exit s i retval).1 = (q.exit s i' retval).1 ∧
      (p.exit s i retval).2.Alike (q.exit s i' retval).2 := by
  have hpending : ∀ pending, Alike { p with pending } { q with pending } := fun pending =>
    ⟨h.modes_eq, rfl, h.watched_eq, h.resolver_eq, h.counters_eq⟩
  unfold Probe.exit
  rw [← h.pending_eq, ← hcaller]
  split
  · next call pending _ =>
    obtain ⟨hemission, halike⟩ := (hpending pending).finish s retval call
    exact ⟨congrArg some hemission, halike⟩
  · next pending _ => exact ⟨rfl, (hpending pending).countIf rfl _⟩

/-- Alike calls on alike probes give the same record and leave alike probes. -/
theorem next (h : p.Alike q) (hstep : step.Alike step') :
    p.emission? step = q.emission? step' ∧ (p.next step).Alike (q.next step') := by
  cases hstep with
  | enter s unit unit' caller args => exact ⟨rfl, h.enter rfl⟩
  | exit s unit unit' caller retval => exact h.exit rfl
  | watch inode => exact ⟨rfl, (h.watch inode).2⟩

end Alike

/-! ### What can be seen of a run -/

/-- What can be seen of a call: the record that it gives, and what the probe then keeps and
counts. -/
structure Sight where
  emission? : Option Emission
  pending : PendingCalls
  fragments? : Option (Table Location Fragment)
  wholePaths? : Option WholePaths
  watched : WatchSet
  statistics : Statistics

/-- What can be seen of each call of a run. -/
def sights (p : Probe) : List Step → List Sight
  | [] => []
  | step :: steps =>
    let after := p.next step
    { emission? := p.emission? step
      pending := after.pending
      fragments? := after.resolver.fragments?
      wholePaths? := after.resolver.wholePaths?
      watched := after.watched
      statistics := after.statistics } :: after.sights steps

theorem Alike.statistics_eq (h : p.Alike q) : p.statistics = q.statistics := by
  obtain ⟨scratch, rfl⟩ := h.exists_scratch
  rfl

/-- **Slots that are used again.** Two probes differ at most in what earlier operations left in
their slots, and in how many slots there are. The same calls come to both, on whichever units, and
find the same tree and draw the same keys. Then each call gives the same record with the same path
bytes on both, and after each the calls in flight, all tables and all statistics are the same. -/
theorem sights_eq {steps steps' : List Step} (h : p.Alike q)
    (hsteps : List.Forall₂ Step.Alike steps steps') : p.sights steps = q.sights steps' := by
  induction hsteps generalizing p q with
  | nil => rfl
  | cons hstep _ ih =>
    obtain ⟨hemission, hnext⟩ := h.next hstep
    simp only [sights, hemission, hnext.pending_eq, hnext.resolver_eq, hnext.watched_eq,
      hnext.statistics_eq, ih hnext]

/-- A pool of two slots in which a rename left a call with keys and a path, and some bytes. -/
def wornPool : ScratchPool where
  slots :=
    [{ pending := { event := { kind := .rename, retval := -2, src := { pathKey := 9 } }
                    srcPath := .embedded (.ofBytes [97, 0]) }
       paths := PathBuffer.empty.append [97, 0] }, {}]
  ne_nil := by simp

/-- A new probe, and one whose slots a rename had used, look the same while an entry is opened and
the operation returns, on whichever units. The call that the rename left behind and the bytes of its
path are in the slot in which the entry's call is captured. -/
theorem sights_eq_worn :
    ∃ p, Probe.new { filteringEnabled := false } 1 = .ok p ∧
      (wornPool.slot 2).pending ≠ (p.scratch.slot 0).pending ∧
      (wornPool.slot 2).paths.filled ≠ (p.scratch.slot 0).paths.filled ∧
      p.sights [.enter plain ⟨0, {}⟩ (.openFile ⟨0⟩ 1), .exit plain ⟨0, {}⟩ 0] =
        { p with scratch := wornPool }.sights
          [.enter plain ⟨2, {}⟩ (.openFile ⟨0⟩ 1), .exit plain ⟨1, {}⟩ 0] := by
  obtain ⟨p, hnew⟩ : ∃ p, Probe.new { filteringEnabled := false } 1 = .ok p := ⟨_, rfl⟩
  have halike : p.Alike { p with scratch := wornPool } := ⟨rfl, rfl, rfl, rfl, rfl⟩
  refine ⟨p, hnew, ?_, ?_, sights_eq halike (.cons (.enter plain 0 2 {} (.openFile ⟨0⟩ 1))
    (.cons (.exit plain 0 1 {} 0) .nil))⟩
  · rw [eq_of_new hnew]
    decide
  · rw [eq_of_new hnew]
    decide

end Probe

end FsTrace
