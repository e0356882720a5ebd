import FsTrace.Proofs.OpenCalls
import FsTrace.Proofs.PathBytes

/-!
# Calls that are parked

What an accepted start leaves in flight, in terms of what was read when it came, and in each mode.
The tables and the path buffers that the handlers work with leave no trace in it.

* `Resolver.reference`, `Resolver.recorded`: what resolving an entry gives in a mode;
* `parked`: the call that an accepted start leaves in flight, and `Probe.pending_enter`;
* `Probe.settings_after`: no step changes the switches, the mode, or whether entries are filtered;
* `Probe.peek?_of_outstanding`: a call stays as it was parked until its return.
-/

namespace FsTrace

/-! ### Resolutions in a mode -/

theorem View.later_later (v : View) (m n : Nat) : (v.later m).later n = v.later (m + n) := by
  funext k
  simp only [View.later_apply, Nat.add_assoc]

/-- The path of an entry as it is stored whole. -/
def wholePath (view : View) (d : Handle) : WholePath :=
  .ofBytes (pathBytes wholePathSize 0 (ascent view d))

theorem length_pathBytes_le_whole (view : View) (d : Handle) :
    (pathBytes wholePathSize 0 (ascent view d)).length ≤ wholePathSize := by
  have hle : 0 + (pathBytes wholePathSize 0 (ascent view d)).length ≤ _ :=
    length_pathBytes_le (Nat.zero_le _)
  rw [Nat.zero_add] at hle
  exact hle.trans (Nat.min_le_left _ _)

@[simp] theorem bytes_wholePath (view : View) (d : Handle) :
    (wholePath view d).bytes = pathBytes wholePathSize 0 (ascent view d) :=
  List.take_of_length_le (length_pathBytes_le_whole view d)

namespace Resolver

variable {r : Resolver} {view : View} {drawn : DrawnKey} {paths : PathBuffer} {d : Handle}
  {leaf : Location}

/-- Where the path of an entry is after it was resolved. -/
def reference (view : View) (drawn : DrawnKey) (start : Nat) (d : Handle) (leaf : Location) :
    ResolutionMode → PathRef
  | .inlineBuffer => .inline (pathBytes pathBufferSize start (ascent view d)).length
  | .fragmentStore => .chain leaf
  | .singleFragment => .keyed drawn.key (wholePath view d).length

/-- The bytes of the path of an entry that become part of the record. -/
def recorded (view : View) (start : Nat) (d : Handle) : ResolutionMode → Bytes
  | .inlineBuffer => pathBytes pathBufferSize start (ascent view d)
  | .fragmentStore | .singleFragment => []

@[simp] theorem mode_new (capacities : Capacities) (mode : ResolutionMode) :
    (Resolver.new capacities mode).mode = mode := by
  cases mode <;> rfl

@[simp] theorem mode_forget : (r.forget leaf).mode = r.mode := by
  cases r <;> rfl

@[simp] theorem mode_resolve : (r.resolve view drawn paths d leaf).resolver.mode = r.mode := by
  cases r <;> rfl

theorem path_resolve :
    (r.resolve view drawn paths d leaf).path =
      reference view drawn paths.filled.length d leaf r.mode := by
  cases r with
  | inlineBuffer => exact congrArg PathRef.inline (lengthFrom_writePath _ _ _ _)
  | fragmentStore s => rfl
  | singleFragment t =>
    have hlength := lengthFrom_writePath view paths.reset d wholePathSize
    refine congrArg (PathRef.keyed drawn.key) (hlength.trans ?_)
    rw [WholePath.length, bytes_wholePath]
    rfl

/-- A path that is stored whole is built in the buffer, which has to be empty for it. -/
theorem filled_resolve (h : r.mode = .singleFragment → paths.filled = []) :
    (r.resolve view drawn paths d leaf).paths.filled =
      paths.filled ++ recorded view paths.filled.length d r.mode := by
  cases r with
  | inlineBuffer => exact filled_writePath _ _ _ _
  | fragmentStore s => exact (List.append_nil _).symm
  | singleFragment t =>
    rw [h rfl]
    rfl

/-- A path that is recorded in an empty buffer. -/
theorem resolve_inlineBuffer (h : paths.filled = []) :
    (inlineBuffer.resolve view drawn paths d leaf).paths.filled =
        pathBytes pathBufferSize 0 (ascent view d) ∧
      (inlineBuffer.resolve view drawn paths d leaf).truncated =
        cutShort pathBufferSize 0 (ascent view d) := by
  constructor
  · rw [filled_resolve fun _ => h, h]
    rfl
  · show (writePath view paths d pathBufferSize).truncated = _
    rw [truncated_writePath, h]
    rfl

theorem truncated_singleFragment (t : WholePaths) :
    ((singleFragment t).resolve view drawn paths d leaf).truncated =
      cutShort wholePathSize 0 (ascent view d) :=
  truncated_writePath view paths.reset d wholePathSize

theorem resolve_singleFragment (t : WholePaths) :
    ((singleFragment t).resolve view drawn paths d leaf).resolver =
      singleFragment (t.insert drawn.key (wholePath view d)).2 := by
  have hfilled : (writePath view paths.reset d wholePathSize).paths.filled =
      pathBytes wholePathSize 0 (ascent view d) := filled_writePath _ _ _ _
  show singleFragment (t.insert drawn.key (.ofBytes _)).2 = _
  rw [hfilled, wholePath]

end Resolver

/-! ### Calls in flight -/

namespace Arguments

variable (a : Accessor) (caller : Caller) (args : Arguments)

@[simp] theorem kind_captured : (args.captured a caller).event.kind = args.kind :=
  (fills_capture a args _).kind_eq

@[simp] theorem srcPath_captured : (args.captured a caller).srcPath = .unresolved :=
  (fills_capture a args _).srcPath_eq

@[simp] theorem src_pathKey_captured : (args.captured a caller).event.src.pathKey = 0 :=
  (fills_capture a args _).pathKey_eq

@[simp] theorem src_pathLength_captured : (args.captured a caller).event.src.pathLength = 0 :=
  (fills_capture a args _).pathLength_eq

@[simp] theorem target_captured : (args.captured a caller).event.target = {} :=
  (fills_capture a args _).target_eq

end Arguments

/-- A call that brings its source's path along, as it is resolved in a mode. With fragments, the
path is found under the drawn key. -/
def PendingCall.bring (call : PendingCall) (view : View) (drawn : DrawnKey) :
    ResolutionMode → PendingCall
  | .inlineBuffer =>
    let bytes := pathBytes pathBufferSize 0 (ascent view call.srcEntry)
    { call with srcPath := .embedded (embed bytes).1 }
  | .fragmentStore =>
    { call with
      srcPath := .chain ⟨drawn.key.toNat, call.event.src.mount⟩
      event := { call.event with src := { call.event.src with pathKey := drawn.key } } }
  | .singleFragment =>
    { call with srcPath := .keyed drawn.key (wholePath view call.srcEntry).length }

/-- The call that an accepted start leaves in flight. Only a rename brings its source's path. -/
def parked (mode : ResolutionMode) (s : Surroundings) (i : Invocation) (args : Arguments) :
    PendingCall :=
  let call := args.captured (s.view 0) i.caller
  if args.kind = .rename then call.bring (s.view.later 2) (s.drawn 0) mode else call

namespace Probe

variable {p : Probe} {s : Surroundings} {i : Invocation} {args : Arguments} {retval : Int64}
  {call : PendingCall} {paths : PathBuffer} {step : Step} {steps : List Step} {t : Thread}
  {mode : ResolutionMode}

/-! A parked call is what was captured, but for the path that a rename brings along. -/

theorem parked_of_ne (h : args.kind ≠ .rename) :
    parked mode s i args = args.captured (s.view 0) i.caller := if_neg h

theorem parked_of_rename (h : args.kind = .rename) :
    parked mode s i args =
      (args.captured (s.view 0) i.caller).bring (s.view.later 2) (s.drawn 0) mode := if_pos h

theorem keeps_parked (mode : ResolutionMode) :
    (parked mode s i args).Keeps (args.captured (s.view 0) i.caller).event := by
  unfold parked
  simp only
  split
  · cases mode with
    | inlineBuffer => exact keeps_self
    | fragmentStore => exact ⟨_, rfl⟩
    | singleFragment => exact keeps_self
  · exact keeps_self

theorem kind_parked : (parked mode s i args).event.kind = args.kind := by
  have hkeeps : (parked mode s i args).Keeps _ := keeps_parked mode
  obtain ⟨pathKey, hevent⟩ := hkeeps
  rw [hevent]
  exact Arguments.kind_captured _ _ _

theorem target_parked : (parked mode s i args).event.target = {} := by
  have hkeeps : (parked mode s i args).Keeps _ := keeps_parked mode
  obtain ⟨pathKey, hevent⟩ := hkeeps
  rw [hevent]
  exact Arguments.target_captured _ _ _

theorem src_pathLength_parked : (parked mode s i args).event.src.pathLength = 0 := by
  have hkeeps : (parked mode s i args).Keeps _ := keeps_parked mode
  obtain ⟨pathKey, hevent⟩ := hkeeps
  rw [hevent]
  exact Arguments.src_pathLength_captured _ _ _

theorem src_pathKey_parked :
    (parked mode s i args).event.src.pathKey =
      if args.kind = .rename ∧ mode = .fragmentStore then (s.drawn 0).key else 0 := by
  by_cases hrename : args.kind = .rename
  · rw [parked_of_rename hrename]
    cases mode with
    | fragmentStore => exact (if_pos ⟨hrename, rfl⟩).symm
    | _ =>
      rw [if_neg (by simp)]
      exact Arguments.src_pathKey_captured _ _ _
  · rw [parked_of_ne hrename, if_neg fun h => hrename h.1]
    exact Arguments.src_pathKey_captured _ _ _

theorem srcEntry_parked :
    (parked mode s i args).srcEntry = (args.captured (s.view 0) i.caller).srcEntry := by
  unfold parked
  simp only
  split
  · cases mode <;> rfl
  · rfl

theorem targetEntry_parked :
    (parked mode s i args).targetEntry = (args.captured (s.view 0) i.caller).targetEntry := by
  unfold parked
  simp only
  split
  · cases mode <;> rfl
  · rfl

theorem srcPath_parked_of_ne (h : args.kind ≠ .rename) :
    (parked mode s i args).srcPath = .unresolved := by
  rw [parked_of_ne h]
  exact Arguments.srcPath_captured _ _ _

/-! ### Settings -/

/-- The switches of a probe, the mode that its resolver is in, and whether entries are filtered. -/
def settings (p : Probe) : Modes × ResolutionMode × Bool :=
  (p.modes, p.resolver.mode, p.watched.enabled)

theorem settings_resolve (view : View) (drawn : DrawnKey) (d : Handle) (leaf : Location) :
    (p.resolve view drawn paths d leaf).2.2.settings = p.settings :=
  congrArg (p.modes, ·, p.watched.enabled) Resolver.mode_resolve

theorem settings_resolveRenameSource :
    (p.resolveRenameSource s paths call).2.2.settings = p.settings := by
  unfold resolveRenameSource
  simp only
  split
  · next h =>
    have hresolve := congrArg (fun r => r.2.2.settings) h
    exact hresolve.symm.trans (settings_resolve _ _ _ _)
  · next h =>
    have hresolve := congrArg (fun r => r.2.2.settings) h
    exact hresolve.symm.trans (settings_resolve _ _ _ _)

theorem settings_sourcePath : (p.sourcePath s paths call).2.2.settings = p.settings := by
  unfold sourcePath
  split
  · exact settings_resolve _ _ _ _
  · rfl
  · rfl

theorem settings_targetPath : (p.targetPath s paths call).2.2.settings = p.settings := by
  have hforget : (if call.event.kind = .rename then
      { p with resolver := p.resolver.forget call.event.targetLocation } else p).settings =
        p.settings := by
    split
    · exact congrArg (p.modes, ·, p.watched.enabled) Resolver.mode_forget
    · rfl
  unfold targetPath
  simp only
  split
  · exact (settings_resolve _ _ _ _).trans hforget
  · exact hforget

theorem settings_watch (inode : Inode) : (p.watch inode).2.settings = p.settings :=
  congrArg (p.modes, p.resolver.mode, ·) WatchSet.enabled_register

theorem settings_registerFollowup (event : Event) :
    (p.registerFollowup event).settings = p.settings := by
  unfold registerFollowup
  simp only
  split
  · split
    · exact settings_watch (p := p) _
    · rfl
  · rfl

/-! ### The start of an operation -/

theorem enabled_inScope (p : Probe) (a : Accessor) (call : PendingCall) :
    (p.inScope a call).2.watched.enabled = p.watched.enabled := by
  have hsource : (p.watched.inScope (a.inodeOf call.srcEntry)
      (a.parentInodeOf call.srcEntry)).2.enabled = p.watched.enabled := WatchSet.enabled_inScope
  unfold inScope
  split
  · next h =>
    rw [h] at hsource
    exact hsource
  · next h =>
    rw [h] at hsource
    split
    · exact WatchSet.enabled_inScope.trans hsource
    · exact hsource

/-- A start that is not accepted leaves the paths and the settings alone. -/
theorem enter_of_not_accepts (h : ¬ p.Accepts s i args) :
    (p.enter s i args).settings = p.settings ∧ (p.enter s i args).resolver = p.resolver ∧
      (p.enter s i args).counters.truncatedPaths = p.counters.truncatedPaths := by
  by_cases htraced : (p.modes.events.contains args.kind && args.isTraced) = true
  · obtain ⟨watched, scratch, hwatched, henter⟩ := enter_of_filtered htraced h
    have henabled : watched.enabled = p.watched.enabled := hwatched ▸ enabled_inScope p _ _
    rw [henter]
    exact ⟨congrArg (p.modes, p.resolver.mode, ·) henabled, rfl, rfl⟩
  · rw [enter_of_not_traced htraced]
    exact ⟨rfl, rfl, rfl⟩

/-- A start that does not resolve anything leaves the paths alone. -/
theorem enter_of_not_rename (h : ¬ (p.Accepts s i args ∧ args.kind = .rename)) :
    (p.enter s i args).resolver = p.resolver ∧
      (p.enter s i args).counters.truncatedPaths = p.counters.truncatedPaths := by
  by_cases haccepts : p.Accepts s i args
  · obtain ⟨watched, -, henter⟩ := enter_of_accepts haccepts
    rw [henter]
    simp only [if_neg fun hrename => h ⟨haccepts, hrename⟩]
    exact ⟨rfl, truncatedPaths_park _ _ _⟩
  · exact (enter_of_not_accepts haccepts).2

/-- A rename brings its source's path along as its mode resolves it. -/
theorem fst_resolveRenameSource (hmode : p.modes.resolution = p.resolver.mode)
    (hpaths : paths.filled = []) :
    (p.resolveRenameSource s paths call).1 = call.bring s.view (s.drawn 0) p.resolver.mode := by
  unfold resolveRenameSource resolve
  rw [hmode]
  cases hresolver : p.resolver with
  | inlineBuffer =>
    have hfilled : (writePath s.view paths call.srcEntry pathBufferSize).paths.filled =
        pathBytes pathBufferSize 0 (ascent s.view call.srcEntry) := by
      rw [filled_writePath, hpaths]
      rfl
    exact congrArg (fun bytes => { call with srcPath := .embedded (embed bytes).1 }) hfilled
  | fragmentStore store =>
    let event := { call.event with src := { call.event.src with pathKey := (s.drawn 0).key } }
    have hleaf : event.srcLocation = ⟨(s.drawn 0).key.toNat, call.event.src.mount⟩ :=
      if_pos (s.drawn 0).ne_zero
    exact congrArg (fun leaf => { call with event, srcPath := .chain leaf }) hleaf
  | singleFragment table =>
    have hpath : ((Resolver.singleFragment table).resolve s.view (s.drawn 0) paths call.srcEntry
        call.event.srcLocation).path = _ := Resolver.path_resolve
    exact congrArg (fun path => { call with srcPath := path }) hpath

/-- An accepted start keeps its call as the mode has it. -/
theorem pending_enter (hmode : p.modes.resolution = p.resolver.mode) (h : p.Accepts s i args) :
    (p.enter s i args).pending =
      (p.pending.start i.caller.threadKey (parked p.resolver.mode s i args)).2 := by
  obtain ⟨watched, -, henter⟩ := enter_of_accepts h
  rw [henter]
  by_cases hrename : args.kind = .rename
  · have hcall : ({ p with watched }.resolveRenameSource { s with view := s.view.later 2 }
        ((p.scratch.slot i.unit).prepare args.kind i.caller).paths
        (args.captured (s.view 0) i.caller)).1 = parked p.resolver.mode s i args := by
      rw [parked, if_pos hrename]
      exact fst_resolveRenameSource hmode rfl
    simp only [if_pos hrename, hcall, pending_park, pending_resolveRenameSource]
  · simp only [if_neg hrename, pending_park, parked_of_ne hrename]

theorem settings_enter : (p.enter s i args).settings = p.settings := by
  by_cases h : p.Accepts s i args
  · obtain ⟨watched, hasked, henter⟩ := enter_of_accepts h
    have henabled : watched.enabled = p.watched.enabled := hasked ▸ enabled_inScope p _ _
    have hwatched : { p with watched }.settings = p.settings :=
      congrArg (p.modes, p.resolver.mode, ·) henabled
    rw [henter]
    simp only
    split
    · exact settings_resolveRenameSource.trans hwatched
    · exact hwatched
  · exact (enter_of_not_accepts h).1

/-! ### Whole runs -/

/-- The probe after the call of a thread was taken out. -/
def takeOut (p : Probe) (i : Invocation) : Probe :=
  { p with pending := (p.pending.complete i.caller.threadKey).2 }

/-- A return takes its call out and completes it. -/
theorem exit_eq (h : p.pending.peek? i.caller.threadKey = some call) :
    p.exit s i retval = ((p.takeOut i).finish s i retval call).map some id := exit_eq_of_some h

theorem settings_finish : (p.finish s i retval call).2.settings = p.settings := by
  simp only [finish]
  exact (settings_registerFollowup _).trans (settings_targetPath.trans settings_sourcePath)

theorem settings_next : (p.next step).settings = p.settings := by
  cases step with
  | enter s i args => exact settings_enter
  | exit s i retval =>
    rw [next]
    unfold exit
    split
    · exact settings_finish
    · rfl
  | watch inode => exact settings_watch inode

/-- The settings never change. -/
theorem settings_after : (p.after steps).settings = p.settings := by
  induction steps generalizing p with
  | nil => rfl
  | cons step steps ih => exact ih.trans settings_next

theorem mode_after : (p.after steps).resolver.mode = p.resolver.mode :=
  congrArg (·.2.1) settings_after

theorem modes_after : (p.after steps).modes = p.modes := congrArg Prod.fst settings_after

/-- The call of an outstanding start is kept as it was parked. -/
theorem peek?_of_outstanding (hmode : p.modes.resolution = p.resolver.mode)
    (h : p.Outstanding steps t s i args) :
    (p.after steps).pending.peek? t.key = some (parked p.resolver.mode s i args) := by
  induction steps using List.reverseRecOn with
  | nil => exact absurd h not_outstanding_nil
  | append_singleton steps step ih =>
    rw [after_concat]
    rcases outstanding_concat.1 h with ⟨hbefore, hends⟩ | ⟨rfl, rfl, haccepts⟩
    · rw [peek?_next_of_not_ends hends]
      exact ih hbefore
    · have hmode' : (p.after steps).modes.resolution = (p.after steps).resolver.mode := by
        rw [modes_after, mode_after, hmode]
      rw [next, pending_enter hmode' haccepts, mode_after]
      exact Table.peek?_insert_self _ _ _

theorem resolver_of_new {config : Config} {processors : Nat}
    (hnew : Probe.new config processors = .ok p) :
    p.resolver = .new config.capacities config.resolutionMode := by
  rw [eq_of_new hnew]

end Probe

end FsTrace
