import FsTrace.Proofs.Emissions
import FsTrace.Proofs.LinkedChains

/-!
# Calls in fragment mode

What the handlers do to the stored fragments, whatever they read.

* `WalkLog`: stored fragments, and how many walks ran out of depth; `Probe.Logs`: those of a probe;
* `Probe.Logs.enter_rename`, `Probe.Logs.enter_of_not`: only the start of a rename stores anything;
* `WalkLog.complete`, `Probe.Logs.exit`: what the return of an operation stores;
* `WalkLog.Grows`: neither evictions nor walks that ran out of depth are ever taken back, and a
  walk takes no more than a known amount of room (`Probe.Logs.grows_enter`,
  `Probe.Logs.grows_exit`).
-/

namespace FsTrace

/-! ### Walks one after another -/

/-- Stored fragments, and how many walks ran out of depth. -/
structure WalkLog where
  store : FragmentStore
  cut : Nat

namespace WalkLog

/-- The path of an entry is resolved. -/
def walk (w : WalkLog) (view : View) (d : Handle) (leaf : Location) : WalkLog where
  store := (w.store.resolve view d leaf).2
  cut := w.cut + (w.store.resolve view d leaf).1.toNat

/-- What is stored of a location is dropped. -/
def forget (w : WalkLog) (leaf : Location) : WalkLog := { w with store := w.store.forget leaf }

/-- The walks of a return: from the source, unless its path was brought along, and from the target,
which is dropped first if it was renamed. -/
def complete (w : WalkLog) (s : Surroundings) (call : PendingCall) : WalkLog :=
  let w :=
    if call.srcPath = .unresolved then w.walk s.view call.srcEntry call.event.srcLocation else w
  let w := if call.event.kind = .rename then w.forget call.event.targetLocation else w
  if call.event.kind.hasTarget then
    w.walk (s.view.later maxPathDepth) call.targetEntry call.event.targetLocation
  else w

/-- Nothing was evicted so far, and there is room for so many more fragments. -/
structure Room (w : WalkLog) (n : Nat) : Prop where
  unswept : w.store.Unswept
  room : w.store.inserted + n ≤ w.store.table.capacity

/-- At most so many walks were done: nothing is taken back from the counts, and each walk takes at
most the room of a whole ascent and a mark. -/
structure Grows (w : WalkLog) (walks : Nat) (w' : WalkLog) : Prop where
  evictions_le : w.store.table.evictions ≤ w'.store.table.evictions
  cut_le : w.cut ≤ w'.cut
  room : ∀ n, w.Room (n + (maxPathDepth + 1) * walks) → w'.Room n

variable {w w' w'' : WalkLog} {k l : Nat}

theorem Room.mono (h : w.Room l) (hle : k ≤ l) : w.Room k :=
  ⟨h.unswept, (Nat.add_le_add_left hle _).trans h.room⟩

theorem Grows.mono (h : w.Grows k w') (hle : k ≤ l) : w.Grows l w' :=
  ⟨h.evictions_le, h.cut_le, fun n hroom =>
    h.room n (hroom.mono (Nat.add_le_add_left (Nat.mul_le_mul_left _ hle) _))⟩

theorem Grows.refl (w : WalkLog) : w.Grows 0 w := ⟨le_rfl, le_rfl, fun _ => id⟩

theorem Grows.trans (h : w.Grows k w') (h' : w'.Grows l w'') : w.Grows (k + l) w'' := by
  refine ⟨h.evictions_le.trans h'.evictions_le, h.cut_le.trans h'.cut_le, fun n hroom => ?_⟩
  refine h'.room n (h.room _ (hroom.mono ?_))
  rw [Nat.mul_add]
  omega

theorem grows_walk (w : WalkLog) (view : View) (d : Handle) (leaf : Location) :
    w.Grows 1 (w.walk view d leaf) := by
  refine ⟨FragmentStore.evictions_le_resolve, Nat.le_add_right _ _, fun n hroom => ?_⟩
  obtain ⟨ps, hwrites, hlength⟩ : ∃ ps, FragmentStore.Writes w.store ps (w.walk view d leaf).store ∧
      ps.length ≤ maxPathDepth + 1 := by
    show ∃ ps, FragmentStore.Writes w.store ps (w.store.resolve view d leaf).2 ∧ _
    unfold FragmentStore.resolve
    split
    · exact ⟨[], .done, Nat.zero_le _⟩
    · exact ⟨_, FragmentStore.writes_storeLevels _, (FragmentStore.length_puts_le _).trans
        (Nat.succ_le_succ (length_ascent_le _ _))⟩
  have hle := hroom.room
  have hunswept := hwrites.unswept hroom.unswept (by omega)
  refine ⟨hunswept, ?_⟩
  rw [hwrites.inserted_eq, hwrites.capacity_eq]
  omega

theorem grows_forget (w : WalkLog) (leaf : Location) : w.Grows 0 (w.forget leaf) :=
  ⟨FragmentStore.evictions_forget.ge, le_rfl, fun _ hroom =>
    ⟨hroom.unswept.forget, hroom.room.trans_eq FragmentStore.capacity_forget.symm⟩⟩

theorem grows_complete (w : WalkLog) (s : Surroundings) (call : PendingCall) :
    w.Grows 2 (w.complete s call) := by
  have hsource : w.Grows 1 (if call.srcPath = .unresolved then
      w.walk s.view call.srcEntry call.event.srcLocation else w) := by
    split
    · exact grows_walk _ _ _ _
    · exact (Grows.refl w).mono (Nat.zero_le 1)
  have hforget : ∀ w : WalkLog, w.Grows 0 (if call.event.kind = .rename then
      w.forget call.event.targetLocation else w) := by
    intro w
    split
    · exact grows_forget _ _
    · exact .refl w
  unfold complete
  simp only
  split
  · exact (hsource.trans (hforget _)).trans (grows_walk _ _ _ _)
  · exact (hsource.trans (hforget _)).mono one_le_two

end WalkLog

namespace Probe

variable {p : Probe} {w w' : WalkLog} {s : Surroundings} {i : Invocation} {args : Arguments}
  {retval : Int64} {call : PendingCall} {paths : PathBuffer}

/-- The fragments that a probe stores, and how many of its walks ran out of depth. -/
structure Logs (p : Probe) (w : WalkLog) : Prop where
  resolver_eq : p.resolver = .fragmentStore w.store
  truncatedPaths_eq : p.counters.truncatedPaths = w.cut

theorem logs_new {config : Config} {processors : Nat} (hnew : Probe.new config processors = .ok p)
    (hmode : config.resolutionMode = .fragmentStore) :
    p.Logs ⟨.new config.capacities.pathFragments, 0⟩ := by
  refine ⟨(resolver_of_new hnew).trans (by rw [hmode]; rfl), ?_⟩
  rw [eq_of_new hnew]

namespace Logs

theorem unique (h : p.Logs w) (h' : p.Logs w') : w = w' := by
  have hstore := Resolver.fragmentStore.inj (h.resolver_eq.symm.trans h'.resolver_eq)
  have hcut := h.truncatedPaths_eq.symm.trans h'.truncatedPaths_eq
  cases w
  cases w'
  exact congrArg₂ WalkLog.mk hstore hcut

theorem fragmentsEvicted_eq (h : p.Logs w) :
    p.statistics.fragmentsEvicted = w.store.table.evictions := by
  rw [statistics, h.resolver_eq]

theorem statistics_truncatedPaths (h : p.Logs w) :
    p.statistics.counters.truncatedPaths = w.cut := by
  rw [statistics, h.resolver_eq]
  exact h.truncatedPaths_eq

theorem countIf (h : p.Logs w) (condition : Bool) {counter : Counter}
    (hne : counter ≠ .truncatedPaths) : (p.countIf condition counter).Logs w :=
  ⟨h.resolver_eq, (p.truncatedPaths_countIf_of_ne condition hne).trans h.truncatedPaths_eq⟩

theorem resolve (h : p.Logs w) (view : View) (drawn : DrawnKey) (paths : PathBuffer) (d : Handle)
    (leaf : Location) : (p.resolve view drawn paths d leaf).2.2.Logs (w.walk view d leaf) := by
  unfold Probe.resolve
  rw [h.resolver_eq]
  refine ⟨rfl, ?_⟩
  show (p.counters.incrementIf (w.store.resolve view d leaf).1 .truncatedPaths).truncatedPaths =
    w.cut + (w.store.resolve view d leaf).1.toNat
  rw [← h.truncatedPaths_eq]
  cases (w.store.resolve view d leaf).1 <;> rfl

/-! ### The start of an operation -/

theorem resolveRenameSource (h : p.Logs w) (hmode : p.modes.resolution = .fragmentStore)
    (s : Surroundings) (paths : PathBuffer) (call : PendingCall) :
    (p.resolveRenameSource s paths call).2.2.Logs
      (w.walk s.view call.srcEntry ⟨(s.drawn 0).key.toNat, call.event.src.mount⟩) := by
  let keyed := { call.event with src := { call.event.src with pathKey := (s.drawn 0).key } }
  have hleaf : keyed.srcLocation = ⟨(s.drawn 0).key.toNat, call.event.src.mount⟩ :=
    if_pos (s.drawn 0).ne_zero
  have hresolve := h.resolve s.view (s.drawn 0) paths call.srcEntry keyed.srcLocation
  have hpath : (p.resolve s.view (s.drawn 0) paths call.srcEntry keyed.srcLocation).1 =
      .chain keyed.srcLocation := by
    unfold Probe.resolve
    rw [h.resolver_eq]
    rfl
  rw [hleaf] at hresolve hpath
  unfold Probe.resolveRenameSource
  simp only [hmode, if_true]
  rw [hleaf]
  split
  · next hresult => cases hpath.symm.trans (congrArg Prod.fst hresult)
  · next hresult => rwa [hresult] at hresolve

theorem park (h : p.Logs w) (key : Nat) (call : PendingCall) : (p.park key call).Logs w :=
  ⟨h.resolver_eq, (p.truncatedPaths_park key call).trans h.truncatedPaths_eq⟩

/-- Only the start of a rename stores anything. -/
theorem enter_of_not (h : p.Logs w) (hnot : ¬ (p.Accepts s i args ∧ args.kind = .rename)) :
    (p.enter s i args).Logs w := by
  obtain ⟨hresolver, hcut⟩ := enter_of_not_rename hnot
  exact ⟨hresolver.trans h.resolver_eq, hcut.trans h.truncatedPaths_eq⟩

/-- The start of a rename stores its source under the key that it draws. -/
theorem enter_rename (h : p.Logs w) (hmode : p.modes.resolution = .fragmentStore)
    (haccepts : p.Accepts s i args) (hkind : args.kind = .rename) :
    (p.enter s i args).Logs
      (w.walk (s.view.later 2) (args.captured (s.view 0) i.caller).srcEntry
        ⟨(s.drawn 0).key.toNat, (args.captured (s.view 0) i.caller).event.src.mount⟩) := by
  obtain ⟨watched, -, henter⟩ := enter_of_accepts haccepts
  rw [henter]
  simp only [if_pos hkind]
  have hwatched : { p with watched }.Logs w := ⟨h.resolver_eq, h.truncatedPaths_eq⟩
  have hresolve := hwatched.resolveRenameSource hmode { s with view := s.view.later 2 }
    ((p.scratch.slot i.unit).prepare args.kind i.caller).paths (args.captured (s.view 0) i.caller)
  refine park ?_ _ _
  exact ⟨hresolve.resolver_eq, hresolve.truncatedPaths_eq⟩

/-! ### The return of an operation -/

theorem sourcePath (h : p.Logs w) :
    (p.sourcePath s paths call).2.2.Logs
      (if call.srcPath = .unresolved then w.walk s.view call.srcEntry call.event.srcLocation
        else w) := by
  unfold Probe.sourcePath
  cases call.srcPath with
  | unresolved => exact h.resolve _ _ _ _ _
  | _ => exact h

theorem targetPath (h : p.Logs w) :
    (p.targetPath s paths call).2.2.Logs
      (let w := if call.event.kind = .rename then w.forget call.event.targetLocation else w
      if call.event.kind.hasTarget then
        w.walk (s.view.later maxPathDepth) call.targetEntry call.event.targetLocation
      else w) := by
  have hforget : (if call.event.kind = .rename then
      { p with resolver := p.resolver.forget call.event.targetLocation } else p).Logs
        (if call.event.kind = .rename then w.forget call.event.targetLocation else w) := by
    split
    · exact ⟨by rw [h.resolver_eq]; rfl, h.truncatedPaths_eq⟩
    · exact h
  unfold Probe.targetPath
  simp only
  split
  · exact hforget.resolve _ _ _ _ _
  · exact hforget

theorem registerFollowup (h : p.Logs w) (event : Event) : (p.registerFollowup event).Logs w :=
  ⟨(resolver_registerFollowup event).trans h.resolver_eq,
    (truncatedPaths_registerFollowup event).trans h.truncatedPaths_eq⟩

theorem finish (h : p.Logs w) :
    (p.finish s i retval call).2.Logs
      (w.complete { s with view := s.view.later 1 } (readOutcome (s.view 0) retval call)) := by
  simp only [Probe.finish]
  refine (registerFollowup ?_ _).countIf true (by decide)
  generalize readOutcome (s.view 0) retval call = call
  generalize { s with view := s.view.later 1 } = s'
  generalize (p.scratch.slot i.unit).paths.reset = paths
  have hsource : (p.sourcePath s' paths call).2.2.Logs _ := h.sourcePath
  have htarget : ∀ src : Endpoint, ((p.sourcePath s' paths call).2.2.targetPath s'
      (p.sourcePath s' paths call).2.1
      { call with event := { call.event with src } }).2.2.Logs (w.complete s' call) :=
    fun src => hsource.targetPath
  exact ⟨(htarget _).resolver_eq, (htarget _).truncatedPaths_eq⟩

/-- A return does the walks of the call that it completes. -/
theorem exit (h : p.Logs w) (hcall : p.pending.peek? i.caller.threadKey = some call) :
    (p.exit s i retval).2.Logs
      (w.complete { s with view := s.view.later 1 } (readOutcome (s.view 0) retval call)) := by
  have htake : (p.takeOut i).Logs w := ⟨h.resolver_eq, h.truncatedPaths_eq⟩
  rw [exit_eq hcall]
  exact htake.finish

/-- A return whose start is not known stores nothing. -/
theorem exit_of_none (h : p.Logs w) (hcall : p.pending.peek? i.caller.threadKey = none) :
    (p.exit s i retval).2.Logs w := by
  have htake : (p.takeOut i).Logs w := ⟨h.resolver_eq, h.truncatedPaths_eq⟩
  rw [exit_eq_of_none hcall]
  exact htake.countIf true (by decide)

/-! ### Counts -/

theorem grows_enter (h : p.Logs w) (hmode : p.modes.resolution = .fragmentStore) :
    ∃ w', (p.enter s i args).Logs w' ∧ w.Grows 1 w' := by
  by_cases hrename : p.Accepts s i args ∧ args.kind = .rename
  · exact ⟨_, h.enter_rename hmode hrename.1 hrename.2, w.grows_walk _ _ _⟩
  · exact ⟨w, h.enter_of_not hrename, (WalkLog.Grows.refl w).mono (Nat.zero_le 1)⟩

theorem grows_exit (h : p.Logs w) : ∃ w', (p.exit s i retval).2.Logs w' ∧ w.Grows 2 w' := by
  cases hcall : p.pending.peek? i.caller.threadKey with
  | none => exact ⟨w, h.exit_of_none hcall, (WalkLog.Grows.refl w).mono (Nat.zero_le 2)⟩
  | some call => exact ⟨_, h.exit hcall, w.grows_complete _ _⟩

end Logs

end Probe

end FsTrace
