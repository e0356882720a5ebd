import FsTrace.Proofs.WorkerRecords

/-!
# What a simulation accounts for

A simulation starts with a grown tree whose directories are watched, and with idle workers. Whatever
is drawn, and in whichever order the steps of the workers come, each of their calls is found in the
statistics.

* `Simulation.ready`, a simulation before the first step, and `Simulation.start_eq`;
* what holds of it, `Simulation.Fresh`: `tallied_ready`, `balanced_ready`, `owned_ready`,
  `covering_ready`;
* `Simulation.Enough`: three steps for each call of a worker, with which it has done them all,
  `Fresh.left_eq_zero`;
* `Simulation.Accounts` and `Simulation.run_accounts`: all calls of all workers are accounted for.
-/

namespace FsTrace

namespace Simulation

open Probe

variable {config : Config} {options : SimulationOptions} {processors : Nat} {pid : UInt32}
  {draws : Draws} {p : Probe} {g : GrownTree} {t : Tree} {n : Nat}

/-! ### The start -/

/-- Many inodes are watched, one after another. -/
def watchAll (p : Probe) (inodes : List Inode) : Probe :=
  { p with watched := inodes.foldl (fun w inode => (w.register inode).2) p.watched }

/-- A simulation before the first step: some directories are watched, and the workers are idle. -/
def ready (config : Config) (options : SimulationOptions) (pid : UInt32) (p : Probe)
    (g : GrownTree) (t : Tree) (n : Nat) : Simulation where
  probe := watchAll p
    ((if config.recursiveWatch then g.folders else g.folders.take 1).map t.accessor.inodeOf)
  tree := t
  grown := g
  workers := (List.range n).map fun index =>
    { invocation := { unit := index, caller := caller pid index } }
  operations := options.operations

theorem foldl_watch (p : Probe) (a : Accessor) (folders : List Handle) :
    folders.foldl (fun p folder => (p.watch (a.inodeOf folder)).2) p =
      watchAll p (folders.map a.inodeOf) := by
  induction folders generalizing p with
  | nil => rfl
  | cons folder folders ih => exact ih _

/-- Without a table or a measure that is zero, a simulation starts. -/
theorem start_eq (hconfig : config.validate = .ok ()) (hshape : options.shape.validate = .ok ())
    (processors : Nat) (pid : UInt32) (draws : Draws) :
    ∃ p g t, Probe.new config processors = .ok p ∧ g.Complete t ∧
      g.folders.length = options.shape.breadth * options.shape.depth + 1 ∧
      start config options processors pid draws =
        .ok (ready config options pid p g t
          (if options.jobs = 0 then max (config.units processors) 1 else options.jobs)) := by
  obtain ⟨p, hnew⟩ : ∃ p, Probe.new config processors = .ok p := by
    rw [Probe.new, hconfig]
    exact ⟨_, rfl⟩
  obtain ⟨g, t, hgrow, hcomplete, hlength⟩ :=
    TreeShape.grow_of_validate hshape (Tree.growing_new mount device) draws
  have hunits : (watchAll p ((if config.recursiveWatch then g.folders
      else g.folders.take 1).map t.accessor.inodeOf)).units = max (config.units processors) 1 := by
    rw [eq_of_new hnew]
    exact List.length_replicate
  refine ⟨p, g, t, hnew, hcomplete, hlength, ?_⟩
  rw [start, hnew, hgrow, ← hunits, ready, ← foldl_watch]
  rfl

/-! ### What holds at the start -/

theorem mem_ready {w : Worker} (hw : w ∈ (ready config options pid p g t n).workers) :
    ∃ index < n, w = { invocation := { unit := index, caller := caller pid index } } := by
  obtain ⟨index, hindex, rfl⟩ := List.mem_map.1 hw
  exact ⟨index, List.mem_range.1 hindex, rfl⟩

theorem length_ready : (ready config options pid p g t n).workers.length = n := by
  rw [ready, List.length_map, List.length_range]

/-- A number that all workers have at the start is added up. -/
theorem total_ready {f : Worker → Nat} {k : Nat}
    (hf : ∀ index, f { invocation := { unit := index, caller := caller pid index } } = k) :
    (ready config options pid p g t n).total f = n * k := by
  have hall : ∀ i ∈ (ready config options pid p g t n).workers.map f, i = k := by
    intro i hi
    obtain ⟨w, hw, rfl⟩ := List.mem_map.1 hi
    obtain ⟨index, -, rfl⟩ := mem_ready hw
    exact hf index
  rw [total, List.sum_eq_card_nsmul _ k hall, List.length_map, length_ready, smul_eq_mul]

theorem total_due_ready :
    (ready config options pid p g t n).total (Worker.due options.operations) =
      n * options.operations :=
  total_ready fun _ => rfl

theorem valid_watchAll (h : p.watched.inodes.Valid) (inodes : List Inode) :
    (watchAll p inodes).watched.inodes.Valid := by
  show (inodes.foldl (fun w inode => (w.register inode).2) p.watched).inodes.Valid
  induction inodes generalizing p with
  | nil => exact h
  | cons inode inodes ih =>
    exact ih (p := (p.watch inode).2) (WatchSet.grows_register h inode).valid

theorem enabled_watchAll (p : Probe) (inodes : List Inode) :
    (watchAll p inodes).watched.enabled = p.watched.enabled := by
  show (inodes.foldl (fun w inode => (w.register inode).2) p.watched).enabled = _
  induction inodes generalizing p with
  | nil => rfl
  | cons inode inodes ih => exact (ih (p.watch inode).2).trans WatchSet.enabled_register

theorem counter_ready (hnew : Probe.new config processors = .ok p) (c : Counter) :
    (ready config options pid p g t n).counter c = 0 := by
  show p.counters.get c = 0
  rw [eq_of_new hnew]
  cases c <;> rfl

theorem tallied_ready (hnew : Probe.new config processors = .ok p) :
    (ready config options pid p g t n).Tallied config (n * options.operations) where
  tidy := ⟨(fields_of_new hnew).1, (tidy_new hnew).pending,
    valid_watchAll (tidy_new hnew).watched _⟩
  capacity_eq := by
    show p.pending.capacity = _
    rw [(fields_of_new hnew).2.1]
    rfl
  under_way key call hcall := by
    change p.pending.peek? key = some call at hcall
    rw [peek?_of_new hnew] at hcall
    cases hcall
  returns_eq := by
    rw [counter_ready hnew, counter_ready hnew]
    exact (Nat.zero_add _).trans total_due_ready

theorem balanced_ready (hnew : Probe.new config processors = .ok p) :
    (ready config options pid p g t n).Balanced (n * options.operations) where
  evicted_eq := counter_ready hnew _
  starts_eq := by
    have hsize : (ready config options pid p g t n).probe.pending.size = 0 := by
      show p.pending.size = 0
      rw [(fields_of_new hnew).2.1]
      rfl
    have hunbegun : (ready config options pid p g t n).total
        (Worker.unbegun options.operations) = n * options.operations := total_ready fun _ => rfl
    rw [counter_ready hnew, counter_ready hnew, hsize]
    exact (Nat.zero_add _).trans hunbegun

theorem owned_ready : (ready config options pid p g t n).Owned t := by
  have hheld : (ready config options pid p g t n).held = [] := by
    refine List.flatMap_eq_nil_iff.2 fun w hw => ?_
    obtain ⟨index, -, rfl⟩ := mem_ready hw
    rfl
  refine ⟨fun _ _ => rfl, le_rfl, hheld ▸ List.nodup_nil, fun d hd => ?_, fun d hd => ?_,
    fun w hw operation hphase => ?_⟩
  · rw [hheld] at hd
    cases hd
  · rw [hheld] at hd
    cases hd
  · obtain ⟨index, -, rfl⟩ := mem_ready hw
    cases hphase

/-- At the start all directories are watched, where there is room for them. -/
theorem watching_ready (hnew : Probe.new config processors = .ok p) (hcomplete : g.Complete t)
    (hfiltering : config.filteringEnabled = true) (hrecursive : config.recursiveWatch = true)
    (hroom : g.folders.toFinset.card + n * options.operations ≤ config.capacities.inodeFilter) :
    (ready config options pid p g t n).Watching t := by
  have hwatched := (fields_of_new hnew).2.2
  have hcapacity : p.watched.inodes.capacity = max config.capacities.inodeFilter 1 := by
    rw [hwatched]
    rfl
  have hcard : (g.folders.toFinset.image t.accessor.inodeOf).card ≤ g.folders.toFinset.card :=
    Finset.card_image_le
  have hamong : p.watched.Among (g.folders.toFinset.image t.accessor.inodeOf)
      (max config.capacities.inodeFilter 1) := by
    refine ⟨(tidy_new hnew).watched, hcapacity, fun inode hinode => ?_, by omega⟩
    rw [WatchSet.Holds, hwatched, WatchSet.new, Table.peek?_new] at hinode
    cases hinode
  have hinodes : ∀ inode ∈ g.folders.map t.accessor.inodeOf,
      inode ∈ g.folders.toFinset.image t.accessor.inodeOf := by
    intro inode hinode
    obtain ⟨d, hd, rfl⟩ := List.mem_map.1 hinode
    exact Finset.mem_image_of_mem _ (List.mem_toFinset.2 hd)
  obtain ⟨hall, hholds⟩ := hamong.registerAll hinodes
  have hstart : (ready config options pid p g t n).probe.watched =
      (g.folders.map t.accessor.inodeOf).foldl (fun w inode => (w.register inode).2)
        p.watched := by
    rw [ready, if_pos hrecursive]
    rfl
  refine ⟨?_, fun d hd => ?_, ?_⟩
  · show p.modes.filtering = true
    rw [(fields_of_new hnew).1]
    exact hfiltering
  · obtain ⟨node, hnode⟩ := hcomplete.exists_of_folder d hd
    rw [hstart]
    refine hholds _ ?_ (Or.inr (List.mem_map_of_mem hd))
    rw [Tree.inodeOf_of hnode]
    exact hcomplete.growing.inode_ne_zero d node hnode
  · have hdue : (ready config options pid p g t n).total (Worker.due options.operations) =
        n * options.operations := total_due_ready
    have hsize := hall.size_le
    have hkept := hall.capacity_eq
    rw [← hstart] at hsize hkept
    show (ready config options pid p g t n).probe.watched.size +
      (ready config options pid p g t n).total (Worker.due options.operations) ≤ _
    omega

theorem covering_ready (hnew : Probe.new config processors = .ok p) (hcomplete : g.Complete t)
    (hscope : config.filteringEnabled = false ∨ config.recursiveWatch = true ∧
      g.folders.toFinset.card + n * options.operations ≤ config.capacities.inodeFilter) :
    (ready config options pid p g t n).Covering t := by
  cases hfiltering : config.filteringEnabled with
  | false =>
    refine Or.inl ((enabled_watchAll p _).trans ?_)
    rw [(fields_of_new hnew).2.2, hfiltering]
    rfl
  | true =>
    obtain ⟨hrecursive, hroom⟩ := hscope.resolve_left (by simp [hfiltering])
    exact Or.inr (watching_ready hnew hcomplete hfiltering hrecursive hroom)

/-- Thread numbers have 32 bits, which is enough for the workers to have keys of their own. -/
theorem keys_ready (hn : n < 2 ^ 32) :
    ((ready config options pid p g t n).workers.map Worker.key).Nodup := by
  rw [ready, List.map_map]
  refine List.Nodup.map_on (fun i hi j hj hkeys => ?_) List.nodup_range
  rw [List.mem_range] at hi hj
  have htid := congrArg UInt32.toNat (Caller.threadKey_eq_iff.1 hkeys).2
  change (UInt32.ofNat (min (i + 1) 0xFFFFFFFF)).toNat =
    (UInt32.ofNat (min (j + 1) 0xFFFFFFFF)).toNat at htid
  have hsize : UInt32.size = 2 ^ 32 := rfl
  rw [UInt32.toNat_ofNat_of_lt' (by omega), UInt32.toNat_ofNat_of_lt' (by omega)] at htid
  omega

theorem inFlight_ready : (ready config options pid p g t n).InFlight := by
  intro w hw operation hoperation
  obtain ⟨index, -, rfl⟩ := mem_ready hw
  cases hoperation

/-! ### Whole runs -/

variable {s : Simulation} {schedule : List (Moment × Nat)}

/-- Each worker gets three steps for each of its calls, in any order. -/
def Enough (s : Simulation) (schedule : List (Moment × Nat)) : Prop :=
  ∀ index < s.workers.length, 3 * s.operations ≤ (schedule.map Prod.snd).count index

/-- Nothing is filtered, or directories are watched as they are made and the filter has room for
those of the grown tree, each counted once, and for one more for each call. -/
def Unfiltered (config : Config) (s : Simulation) : Prop :=
  config.filteringEnabled = false ∨ config.recursiveWatch = true ∧
    s.grown.folders.toFinset.card + s.workers.length * s.operations ≤ config.capacities.inodeFilter

/-- The statistics after a run account for all calls of all workers. -/
structure Accounts (config : Config) (s : Simulation) (schedule : List (Moment × Nat)) : Prop where
  /-- All calls have returned. -/
  idle : ∀ w ∈ (s.run schedule).2.workers, w.phase = .idle
  /-- Each call of each worker is one of those that returned, once. -/
  numbers_eq : ∀ index < s.workers.length,
    ((s.returned schedule).filter (·.worker = index)).map (·.number) = List.range' 1 s.operations
  /-- No call is left pending. -/
  pending_eq : (s.run schedule).2.probe.pending.size = 0
  returns_eq : (s.run schedule).2.probe.statistics.counters.eventsEmitted +
    (s.run schedule).2.probe.statistics.counters.missingCorrelation =
      s.workers.length * s.operations
  /-- With all kinds, and room for a call of each worker. -/
  evicted_eq : s.Roomy config →
    (s.run schedule).2.probe.statistics.counters.pendingEvicted = 0
  starts_eq : s.Roomy config → s.workers.length < 2 ^ 32 →
    (s.run schedule).2.probe.statistics.counters.eventsEmitted +
      (s.run schedule).2.probe.statistics.counters.filteredOut = s.workers.length * s.operations
  /-- If moreover all is in scope, the records are those of the calls, in the order of their
  returns. -/
  filtered_eq : s.Roomy config → s.Unfiltered config →
    (s.run schedule).2.probe.statistics.counters.filteredOut = 0
  told : s.Roomy config → s.Unfiltered config → s.workers.length < 2 ^ 32 →
    List.Forall₂ Return.Told (s.returned schedule) (s.run schedule).1

/-- What holds of a simulation before its first step. -/
structure Fresh (config : Config) (base : Tree) (s : Simulation) : Prop where
  complete : s.grown.Complete base
  unstarted : ∀ w ∈ s.workers, w.phase = .idle ∧ w.begun = 0
  tallied : s.Tallied config (s.workers.length * s.operations)
  balanced : s.Balanced (s.workers.length * s.operations)
  owned : s.Owned base
  inFlight : s.InFlight
  filtered_eq : s.counter .filteredOut = 0
  covering : s.Unfiltered config → s.Covering base
  keys : s.workers.length < 2 ^ 32 → (s.workers.map Worker.key).Nodup

theorem fresh_ready (hnew : Probe.new config processors = .ok p) (hcomplete : g.Complete t) :
    (ready config options pid p g t n).Fresh config t where
  complete := hcomplete
  unstarted w hw := by
    obtain ⟨index, -, rfl⟩ := mem_ready hw
    exact ⟨rfl, rfl⟩
  tallied := by
    rw [length_ready]
    exact tallied_ready hnew
  balanced := by
    rw [length_ready]
    exact balanced_ready hnew
  owned := owned_ready
  inFlight := inFlight_ready
  filtered_eq := counter_ready hnew _
  covering hunfiltered := by
    rw [Unfiltered, length_ready] at hunfiltered
    exact covering_ready hnew hcomplete hunfiltered
  keys hn := by
    rw [length_ready] at hn
    exact keys_ready hn

namespace Fresh

variable {base : Tree}

/-- A worker that gets enough steps has done all its calls. -/
theorem left_eq_zero (h : s.Fresh config base) (henough : s.Enough schedule) :
    ∀ w ∈ (s.run schedule).2.workers, w.left (s.run schedule).2.operations = 0 := by
  intro w' hw'
  obtain ⟨index, hindex, rfl⟩ := List.mem_iff_getElem.1 hw'
  rw [(s.same_run schedule).operations_eq]
  rw [(s.same_run schedule).length_eq] at hindex
  have hw : s.workers[index]? = some s.workers[index] := List.getElem?_eq_getElem hindex
  obtain ⟨w', hw', hleft⟩ := left_run h.complete.usable hw schedule
  obtain ⟨_, rfl⟩ := List.getElem?_eq_some_iff.1 hw'
  obtain ⟨hidle, hbegun⟩ := h.unstarted _ (List.getElem_mem hindex)
  have hstart : s.workers[index].left s.operations = 3 * s.operations := by
    simp [Worker.left, Worker.unbegun, hidle, hbegun]
  rw [hleft, hstart]
  exact Nat.sub_eq_zero_of_le (henough index hindex)

theorem numbers_eq (h : s.Fresh config base) (henough : s.Enough schedule) {index : Nat}
    (hindex : index < s.workers.length) :
    ((s.returned schedule).filter (·.worker = index)).map (·.number) =
      List.range' 1 s.operations := by
  obtain ⟨w', hw', n, hnumbers, hdue, -⟩ :=
    returns_run h.complete.usable (List.getElem?_eq_getElem hindex) schedule
  obtain ⟨hidle, hbegun⟩ := h.unstarted _ (List.getElem_mem hindex)
  have hfirst : s.workers[index].nextReturn = 1 := by
    simp [Worker.nextReturn, hidle, hbegun, Phase.operation?]
  have hall : s.workers[index].due s.operations = s.operations := by
    simp [Worker.due, Worker.unbegun, hidle, hbegun, Phase.operation?]
  have hdone : w'.due s.operations = 0 := by
    have hleft := h.left_eq_zero henough w' (List.mem_of_getElem? hw')
    rw [(s.same_run schedule).operations_eq] at hleft
    exact Worker.due_eq_zero hleft
  rw [hnumbers, hfirst, ← hall, hdue, hdone, Nat.add_zero]

theorem evicted_run (h : s.Fresh config base) (hroomy : s.Roomy config) :
    (s.run schedule).2.counter .pendingEvicted = 0 := by
  have hrun := run_of_advances
    (fun s' => (s'.Tallied config _ ∧ s'.Roomy config) ∧ s'.counter .pendingEvicted = 0)
    (fun hstep hkept => ⟨⟨hkept.1.1.advances hstep, hkept.1.2.same hstep.same⟩,
      (hkept.1.1.evicted_eq hkept.1.2 hstep).trans hkept.2⟩)
    h.complete.usable ⟨⟨h.tallied, hroomy⟩, h.balanced.evicted_eq⟩ schedule
  exact hrun.2

theorem balanced_run (h : s.Fresh config base) (hroomy : s.Roomy config)
    (hworkers : s.workers.length < 2 ^ 32) :
    (s.run schedule).2.Balanced (s.workers.length * s.operations) := by
  have hrun := run_of_advances
    (fun s' => (s'.Tallied config _ ∧ s'.Roomy config ∧ (s'.workers.map Worker.key).Nodup) ∧
      s'.Balanced (s.workers.length * s.operations))
    (fun hstep hkept => ⟨⟨hkept.1.1.advances hstep, hkept.1.2.1.same hstep.same,
      keys_nodup hkept.1.2.2 hstep⟩, hkept.2.advances hkept.1.1 hkept.1.2.1 hkept.1.2.2 hstep⟩)
    h.complete.usable ⟨⟨h.tallied, hroomy, h.keys hworkers⟩, h.balanced⟩ schedule
  exact hrun.2

theorem assured (h : s.Fresh config base) (hroomy : s.Roomy config)
    (hunfiltered : s.Unfiltered config) :
    s.Assured config (s.workers.length * s.operations) base :=
  ⟨h.tallied, hroomy, h.complete, h.owned, h.covering hunfiltered, h.filtered_eq⟩

theorem accounts (h : s.Fresh config base) (henough : s.Enough schedule) :
    s.Accounts config schedule := by
  have hrest := h.left_eq_zero henough
  have hgrown := h.complete.usable
  have htallied := run_of_advances (Tallied config _) (fun hstep hkept => hkept.advances hstep)
    hgrown h.tallied schedule
  obtain ⟨hreturns, hpending⟩ := htallied.at_rest hrest
  refine ⟨fun w hw => (Worker.left_eq_zero_iff.1 (hrest w hw)).1,
    fun index hindex => h.numbers_eq henough hindex, hpending, ?_, fun hroomy => ?_,
    fun hroomy hworkers => ?_, fun hroomy hunfiltered => ?_,
    fun hroomy hunfiltered hworkers => ?_⟩
  · rw [counters_statistics]
    exact hreturns
  · rw [counters_statistics]
    exact h.evicted_run hroomy
  · rw [counters_statistics]
    exact (h.balanced_run hroomy hworkers).at_rest hpending hrest
  · rw [counters_statistics]
    exact (run_of_advances (Assured config _ base) (fun hstep hkept => hkept.advances hstep)
      hgrown (h.assured hroomy hunfiltered) schedule).filtered_eq
  · exact told_run h.inFlight (h.assured hroomy hunfiltered) (h.keys hworkers) schedule

end Fresh

/-- **Every call is accounted for, whatever the schedule.** Without a table and without a measure of
the tree that is zero, a simulation starts; of its directories some may be the same, where names
collide. The steps of its workers come in any order, with anything that can be drawn. When each
worker had enough of them, each of its calls has returned, was emitted or is counted as one whose
start is not known, and none is pending. With all kinds, and room for a call of each worker, none was
dropped, and each was emitted or filtered out; if all is in scope besides, nothing was filtered out,
and each call was emitted once. What is said of the calls one by one takes that the workers have
thread numbers of their own, which have 32 bits. -/
theorem run_accounts (hconfig : config.validate = .ok ()) (hshape : options.shape.validate = .ok ())
    (processors : Nat) (pid : UInt32) (draws : Draws) :
    ∃ s, start config options processors pid draws = .ok s ∧
      s.workers.length =
        (if options.jobs = 0 then max (config.units processors) 1 else options.jobs) ∧
      s.operations = options.operations ∧
      s.grown.folders.length = options.shape.breadth * options.shape.depth + 1 ∧
      ∀ schedule : List (Moment × Nat), s.Enough schedule → s.Accounts config schedule := by
  obtain ⟨p, g, t, hnew, hcomplete, hlength, hstart⟩ :=
    start_eq hconfig hshape processors pid draws
  exact ⟨_, hstart, length_ready, rfl, hlength,
    fun _ henough => (fresh_ready hnew hcomplete).accounts henough⟩

/-- One worker is to rename a link, of which it has none, while the others make a directory. All
take the same name. -/
def crowded (index : Nat) : Moment where
  time := 0
  choice := ⟨if index = 0 then .rename else .makeDir, 0, 0, [97]⟩
  drawn _ := ⟨1, ne_zero_drawn_plain⟩

/-- Two workers make one call each, in turns, on a tree of two directories and a file. -/
theorem run_accounts_two :
    ∃ s, start {} { jobs := 2, operations := 1, shape := ⟨1, 1, 1, 1⟩ } 1 7
        ⟨fun _ => [97], fun _ => 0⟩ = .ok s ∧
      let after := (s.run ([0, 1, 0, 1, 1, 0].map fun index => (crowded index, index))).2
      after.probe.statistics.counters.eventsEmitted = 2 ∧
        after.probe.statistics.counters.missingCorrelation = 0 ∧
        after.probe.statistics.counters.filteredOut = 0 ∧ after.probe.pending.size = 0 := by
  obtain ⟨s, hstart, hlength, hoperations, hfolders, haccounts⟩ :=
    @run_accounts {} { jobs := 2, operations := 1, shape := ⟨1, 1, 1, 1⟩ } rfl rfl 1 7
      ⟨fun _ => [97], fun _ => 0⟩
  have hworkers : s.workers.length = 2 := hlength
  replace hoperations : s.operations = 1 := hoperations
  have henough : s.Enough ([0, 1, 0, 1, 1, 0].map fun index => (crowded index, index)) := by
    rw [Enough, hworkers, hoperations]
    decide
  have hroomy : s.Roomy {} := ⟨fun kind => by cases kind <;> decide, by rw [hworkers]; decide⟩
  have hfew : s.workers.length < 2 ^ 32 := by rw [hworkers]; decide
  have hunfiltered : s.Unfiltered {} := by
    have hcard := List.toFinset_card_le s.grown.folders
    refine Or.inr ⟨rfl, ?_⟩
    rw [hfolders] at hcard
    rw [hworkers, hoperations]
    exact (Nat.add_le_add_right hcard _).trans (by decide)
  have h := haccounts _ henough
  have hfiltered := h.filtered_eq hroomy hunfiltered
  have hstarts := h.starts_eq hroomy hfew
  have hreturns := h.returns_eq
  rw [hworkers, hoperations] at hstarts hreturns
  exact ⟨s, hstart, by omega, by omega, hfiltered, h.pending_eq⟩

end Simulation

end FsTrace
