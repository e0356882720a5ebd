import FsTrace.Proofs.ParkedCalls
import FsTrace.Record

/-!
# Emitted records

What a return gives, in each mode, in terms of what was read when the operation started and when it
returned.

* `report`: the record of a call, and `Probe.fst_finish`: a return gives just this one;
* `Probe.Stores`: what one call of a handler stores in the table of whole paths;
* `Emission.FollowedBy`, `Emission.Located`, `Endpoint.RefersTo`: the three ways in which a record
  tells of its paths;
* `Probe.emission_consistent`: keys, lengths and bytes of every record fit together.
-/

namespace FsTrace

namespace Probe

variable {p : Probe} {s : Surroundings} {i : Invocation} {args : Arguments} {retval : Int64}
  {call : PendingCall} {paths : PathBuffer} {steps : List Step}

/-! ### The return of an operation -/

/-- A path that a call brings along belongs to the mode, and finds room in a buffer. -/
def Fits (mode : ResolutionMode) (call : PendingCall) : Prop :=
  ∀ path, call.srcPath = .embedded path →
    mode = .inlineBuffer ∧ path.bytes.length ≤ pathBufferSize

theorem fits_parked (mode : ResolutionMode) : Fits mode (parked mode s i args) := by
  intro path hpath
  unfold parked at hpath
  simp only at hpath
  split at hpath
  · cases mode with
    | inlineBuffer =>
      obtain rfl := PathRef.embedded.inj hpath
      exact ⟨rfl, (embed_isPrefix _).2.trans (by decide)⟩
    | fragmentStore => cases hpath
    | singleFragment => cases hpath
  · rw [Arguments.srcPath_captured] at hpath
    cases hpath

/-- Where the path of the source is, and the bytes of it that become part of the record. -/
def sourceOf (s : Surroundings) (call : PendingCall) (mode : ResolutionMode) : PathRef × Bytes :=
  match call.srcPath with
  | .unresolved =>
    (Resolver.reference s.view (s.drawn 0) 0 call.srcEntry call.event.srcLocation mode,
      Resolver.recorded s.view 0 call.srcEntry mode)
  | .embedded path => (.inline path.bytes.length, path.bytes)
  | path => (path, [])

/-- The same for the target, which comes after so many bytes. -/
def targetOf (s : Surroundings) (start : Nat) (call : PendingCall) (mode : ResolutionMode) :
    PathRef × Bytes :=
  if call.event.kind.hasTarget then
    let view := s.view.later maxPathDepth
    (Resolver.reference view (s.drawn 1) start call.targetEntry call.event.targetLocation mode,
      Resolver.recorded view start call.targetEntry mode)
  else (.unresolved, [])

theorem sourceOf_unresolved (h : call.srcPath = .unresolved) (mode : ResolutionMode) :
    sourceOf s call mode =
      (Resolver.reference s.view (s.drawn 0) 0 call.srcEntry call.event.srcLocation mode,
        Resolver.recorded s.view 0 call.srcEntry mode) := by
  rw [sourceOf, h]

theorem sourceOf_embedded {path : WholePath} (h : call.srcPath = .embedded path)
    (mode : ResolutionMode) :
    sourceOf s call mode = (.inline path.bytes.length, path.bytes) := by
  rw [sourceOf, h]

theorem sourceOf_chain {leaf : Location} (h : call.srcPath = .chain leaf) (mode : ResolutionMode) :
    sourceOf s call mode = (.chain leaf, []) := by
  rw [sourceOf, h]

theorem sourceOf_keyed {key : UInt32} {length : Nat} (h : call.srcPath = .keyed key length)
    (mode : ResolutionMode) : sourceOf s call mode = (.keyed key length, []) := by
  rw [sourceOf, h]

theorem sourcePath_eq (hpaths : paths.filled = []) (hfits : Fits p.resolver.mode call) :
    (p.sourcePath s paths call).1 = (sourceOf s call p.resolver.mode).1 ∧
      (p.sourcePath s paths call).2.1.filled = (sourceOf s call p.resolver.mode).2 := by
  have hlength : paths.filled.length = 0 := congrArg List.length hpaths
  unfold sourcePath sourceOf
  cases hpath : call.srcPath with
  | unresolved =>
    refine ⟨Resolver.path_resolve.trans (by rw [hlength]), ?_⟩
    refine (Resolver.filled_resolve fun _ => hpaths).trans ?_
    rw [hpaths]
    rfl
  | embedded path =>
    have hroom : paths.filled.length + path.bytes.length ≤ pathBufferSize := by
      rw [hlength, Nat.zero_add]
      exact (hfits path hpath).2
    have hfilled := PathBuffer.filled_append hroom
    rw [hpaths, List.nil_append] at hfilled
    simp only [PathBuffer.pushBytes_of_le hroom, hfilled, true_and]
  | inline length => exact ⟨rfl, hpaths⟩
  | chain leaf => exact ⟨rfl, hpaths⟩
  | keyed key length => exact ⟨rfl, hpaths⟩

theorem targetPath_eq (call : PendingCall)
    (hpaths : p.resolver.mode = .singleFragment → paths.filled = []) :
    (p.targetPath s paths call).1 = (targetOf s paths.filled.length call p.resolver.mode).1 ∧
      (p.targetPath s paths call).2.1.filled =
        paths.filled ++ (targetOf s paths.filled.length call p.resolver.mode).2 := by
  have hforget : (if call.event.kind = .rename then
      { p with resolver := p.resolver.forget call.event.targetLocation } else p).resolver.mode =
        p.resolver.mode := by
    split
    · exact Resolver.mode_forget
    · rfl
  unfold targetPath targetOf
  simp only
  split
  · refine ⟨Resolver.path_resolve.trans (by rw [hforget]), ?_⟩
    refine (Resolver.filled_resolve fun hmode => hpaths (hforget.symm.trans hmode)).trans ?_
    rw [hforget]
  · exact ⟨rfl, (List.append_nil _).symm⟩

/-- The record of a call. -/
def report (s : Surroundings) (retval : Int64) (call : PendingCall) (mode : ResolutionMode) :
    Emission :=
  let call := readOutcome (s.view 0) retval call
  let s := { s with view := s.view.later 1 }
  let src := sourceOf s call mode
  let target := targetOf s src.2.length call mode
  { event := { call.event with
      src := call.event.src.recordPath src.1
      target := call.event.target.recordPath target.1 }
    paths := src.2 ++ target.2 }

theorem srcPath_readOutcome (a : Accessor) :
    (readOutcome a retval call).srcPath = call.srcPath := by
  unfold readOutcome
  simp only
  split <;> rfl

/-- With single fragments, no bytes of a path become part of the record. -/
theorem snd_sourceOf_of_single (hfits : Fits .singleFragment call) :
    (sourceOf s call .singleFragment).2 = [] := by
  unfold sourceOf
  cases hpath : call.srcPath with
  | embedded path => cases (hfits path hpath).1
  | _ => rfl

/-- A return gives the record of its call, whatever the tables and buffers hold. -/
theorem fst_finish (hfits : Fits p.resolver.mode call) :
    (p.finish s i retval call).1 = report s retval call p.resolver.mode := by
  have hfits' : Fits p.resolver.mode (readOutcome (s.view 0) retval call) := fun path hpath =>
    hfits path ((srcPath_readOutcome _).symm.trans hpath)
  simp only [finish, report]
  generalize readOutcome (s.view 0) retval call = call' at hfits'
  generalize { s with view := s.view.later 1 } = s'
  have hpaths := PathBuffer.filled_reset (p.scratch.slot i.unit).paths
  generalize (p.scratch.slot i.unit).paths.reset = paths at hpaths
  obtain ⟨hsource, hfilled⟩ := sourcePath_eq (s := s') hpaths hfits'
  have hmode : (p.sourcePath s' paths call').2.2.resolver.mode = p.resolver.mode :=
    congrArg (·.2.1) settings_sourcePath
  -- the target's path follows that of the source
  have htarget : ∀ src : Endpoint,
      let call := { call' with event := { call'.event with src } }
      let target := (p.sourcePath s' paths call').2.2.targetPath s'
        (p.sourcePath s' paths call').2.1 call
      let source := sourceOf s' call' p.resolver.mode
      target.1 = (targetOf s' source.2.length call' p.resolver.mode).1 ∧
        target.2.1.filled = source.2 ++ (targetOf s' source.2.length call' p.resolver.mode).2 := by
    intro src
    have hempty : (p.sourcePath s' paths call').2.2.resolver.mode = .singleFragment →
        (p.sourcePath s' paths call').2.1.filled = [] := by
      intro hsingle
      rw [hmode] at hsingle
      rw [hfilled, hsingle]
      exact snd_sourceOf_of_single (hsingle ▸ hfits')
    have hboth :=
      targetPath_eq (s := s') { call' with event := { call'.event with src } } hempty
    rw [hmode, hfilled] at hboth
    exact hboth
  simp only [hsource, (htarget _).1, (htarget _).2]

/-! ### Whole paths -/

/-- Some paths are stored whole, one after another. -/
def insertAll (table : WholePaths) (stored : List (UInt32 × WholePath)) : WholePaths :=
  stored.foldl (fun table path => (table.insert path.1 path.2).2) table

/-- What one call of a handler stores in the table of whole paths, in order. -/
def Stores (p : Probe) (step : Step) (stored : List (UInt32 × WholePath)) : Prop :=
  ∃ table, p.resolver = .singleFragment table ∧
    (p.next step).resolver = .singleFragment (insertAll table stored)

variable {table : WholePaths}

theorem resolver_resolveRenameSource :
    (p.resolveRenameSource s paths call).2.2.resolver =
      (p.resolver.resolve s.view (s.drawn 0) paths call.srcEntry
        (if p.modes.resolution = .fragmentStore then
          ⟨(s.drawn 0).key.toNat, call.event.src.mount⟩ else call.event.srcLocation)).resolver := by
  let keyed := { call.event with src := { call.event.src with pathKey := (s.drawn 0).key } }
  have hkeyed : keyed.srcLocation = ⟨(s.drawn 0).key.toNat, call.event.src.mount⟩ :=
    if_pos (s.drawn 0).ne_zero
  have hcall : ∀ {call' : PendingCall} {leaf}, call'.srcEntry = call.srcEntry →
      call'.event.srcLocation = leaf →
      (p.resolve s.view (s.drawn 0) paths call'.srcEntry call'.event.srcLocation).2.2.resolver =
        (p.resolver.resolve s.view (s.drawn 0) paths call.srcEntry leaf).resolver := by
    rintro call' leaf hentry rfl
    rw [hentry]
    rfl
  have hresolve : ∀ call' : PendingCall,
      (if p.modes.resolution = .fragmentStore then { call with event := keyed } else call) = call' →
      (p.resolve s.view (s.drawn 0) paths call'.srcEntry call'.event.srcLocation).2.2.resolver =
        (p.resolver.resolve s.view (s.drawn 0) paths call.srcEntry
          (if p.modes.resolution = .fragmentStore then
            ⟨(s.drawn 0).key.toNat, call.event.src.mount⟩
          else call.event.srcLocation)).resolver := by
    rintro call' rfl
    split
    · exact hcall rfl hkeyed
    · exact hcall rfl rfl
  unfold resolveRenameSource
  simp only
  split
  · next h => exact (congrArg (fun r => r.2.2.resolver) h).symm.trans (hresolve _ rfl)
  · next h => exact (congrArg (fun r => r.2.2.resolver) h).symm.trans (hresolve _ rfl)

/-- The start of a rename stores the path of its source. -/
theorem stores_enter (hresolver : p.resolver = .singleFragment table) (h : p.Accepts s i args)
    (hrename : args.kind = .rename) :
    p.Stores (.enter s i args) [((s.drawn 0).key,
      wholePath (s.view.later 2) (args.captured (s.view 0) i.caller).srcEntry)] := by
  obtain ⟨watched, -, henter⟩ := enter_of_accepts h
  refine ⟨table, hresolver, ?_⟩
  rw [next, henter]
  simp only [if_pos hrename]
  refine Eq.trans (resolver_resolveRenameSource (p := { p with watched })) ?_
  simp only [hresolver]
  exact Resolver.resolve_singleFragment table

theorem resolver_registerFollowup (event : Event) :
    (p.registerFollowup event).resolver = p.resolver := by
  unfold registerFollowup
  simp only
  split
  · split <;> rfl
  · rfl

/-- What a return does to the tables of paths. -/
theorem resolver_finish :
    (p.finish s i retval call).2.resolver =
      let call := readOutcome (s.view 0) retval call
      let s := { s with view := s.view.later 1 }
      let source := p.sourcePath s (p.scratch.slot i.unit).paths.reset call
      let event := { call.event with src := call.event.src.recordPath source.1 }
      (source.2.2.targetPath s source.2.1 { call with event }).2.2.resolver := by
  simp only [finish]
  exact resolver_registerFollowup _

theorem resolver_sourcePath (hresolver : p.resolver = .singleFragment table) :
    (p.sourcePath s paths call).2.2.resolver = .singleFragment (insertAll table
      (if call.srcPath = .unresolved then [((s.drawn 0).key, wholePath s.view call.srcEntry)]
        else [])) := by
  unfold sourcePath
  cases call.srcPath with
  | unresolved =>
    show (p.resolver.resolve _ _ _ _ _).resolver = _
    rw [hresolver, Resolver.resolve_singleFragment]
    rfl
  | _ => exact hresolver

theorem resolver_targetPath (hresolver : p.resolver = .singleFragment table) :
    (p.targetPath s paths call).2.2.resolver = .singleFragment (insertAll table
      (if call.event.kind.hasTarget then
        [((s.drawn 1).key, wholePath (s.view.later maxPathDepth) call.targetEntry)] else [])) := by
  have hforget : (if call.event.kind = .rename then
      { p with resolver := p.resolver.forget call.event.targetLocation } else p).resolver =
        .singleFragment table := by
    split
    · rw [hresolver]
      rfl
    · exact hresolver
  unfold targetPath
  simp only
  split
  · show (Resolver.resolve _ _ _ _ _ _).resolver = _
    rw [hforget, Resolver.resolve_singleFragment]
    rfl
  · exact hforget

theorem srcEntry_readOutcome (a : Accessor) :
    (readOutcome a retval call).srcEntry = call.srcEntry := by
  unfold readOutcome
  simp only
  split <;> rfl

theorem targetEntry_readOutcome (a : Accessor) :
    (readOutcome a retval call).targetEntry = call.targetEntry := by
  unfold readOutcome
  simp only
  split <;> rfl

/-- A return stores the path of its source, unless the call brought it along, and then that of its
target. -/
theorem stores_exit (s : Surroundings) (retval : Int64)
    (hresolver : p.resolver = .singleFragment table)
    (h : p.pending.peek? i.caller.threadKey = some call) :
    p.Stores (.exit s i retval)
      ((if call.srcPath = .unresolved then
          [((s.drawn 0).key, wholePath (s.view.later 1) call.srcEntry)] else []) ++
        if call.event.kind.hasTarget then
          [((s.drawn 1).key, wholePath (s.view.later (1 + maxPathDepth)) call.targetEntry)]
        else []) := by
  refine ⟨table, hresolver, ?_⟩
  have hkind : (readOutcome (s.view 0) retval call).event.kind = call.event.kind :=
    (reports_readOutcome _).kind_eq
  have hresolver : (p.takeOut i).resolver = .singleFragment table := hresolver
  rw [next, exit_eq h]
  refine resolver_finish.trans ((resolver_targetPath (resolver_sourcePath hresolver)).trans ?_)
  simp only [srcPath_readOutcome, srcEntry_readOutcome, targetEntry_readOutcome, hkind, insertAll,
    List.foldl_append, View.later_later]

/-! ### Records -/

/-- The bytes of the source's path that follow a record. A rename brings them along from its start,
as many as can travel with a call. -/
def sourceBytes (s₀ : Surroundings) (i₀ : Invocation) (args : Arguments) (s : Surroundings) :
    Bytes :=
  let source := (args.captured (s₀.view 0) i₀.caller).srcEntry
  if args.kind = .rename then
    (embed (pathBytes pathBufferSize 0 (ascent (s₀.view.later 2) source))).1.bytes
  else pathBytes pathBufferSize 0 (ascent (s.view.later 1) source)

/-- The bytes of the target's path that follow those of the source, if there is a target. -/
def targetBytes (s₀ : Surroundings) (i₀ : Invocation) (args : Arguments) (s : Surroundings) :
    Bytes :=
  let target := (args.captured (s₀.view 0) i₀.caller).targetEntry
  if args.kind.hasTarget then
    pathBytes pathBufferSize (sourceBytes s₀ i₀ args s).length
      (ascent (s.view.later (1 + maxPathDepth)) target)
  else []

end Probe

namespace Emission

/-- The record is followed by the paths of its source and of its target, and has no keys. -/
structure FollowedBy (e : Emission) (source target : Bytes) : Prop where
  src_pathKey : e.event.src.pathKey = 0
  target_pathKey : e.event.target.pathKey = 0
  length_paths : e.paths.length = e.event.src.pathLength + e.event.target.pathLength
  length_le : e.paths.length ≤ pathBufferSize
  split_eq : e.split = (source, target)

/-- The record is followed by nothing, and its paths are found from the locations. Only the source
of a rename has a key. -/
structure Located (e : Emission) : Prop where
  paths_eq : e.paths = []
  src_pathLength : e.event.src.pathLength = 0
  target_pathLength : e.event.target.pathLength = 0
  target_pathKey : e.event.target.pathKey = 0
  src_pathKey : e.event.src.pathKey ≠ 0 ↔ e.event.kind = .rename

theorem split_of_append {e : Emission} {source target : Bytes} (hpaths : e.paths = source ++ target)
    (hsource : e.event.src.pathLength = source.length)
    (htarget : e.event.target.pathLength = target.length) : e.split = (source, target) := by
  simp only [split, hpaths, hsource, htarget, List.take_left, List.drop_left, List.take_length]

end Emission

/-- An endpoint has the key and the length of a path that is stored whole. -/
structure Endpoint.RefersTo (e : Endpoint) (path : WholePath) : Prop where
  pathKey_ne : e.pathKey ≠ 0
  pathLength_eq : e.pathLength = path.length
  length_le : e.pathLength ≤ wholePathSize

namespace Probe

variable {p : Probe} {s s₀ : Surroundings} {i i₀ : Invocation} {args : Arguments} {retval : Int64}
  {call : PendingCall} {steps : List Step} {mode : ResolutionMode}

/-- What is read when an operation returns has nothing to do with where the paths are. -/
theorem paths_readOutcome (a : Accessor) (retval : Int64) (call : PendingCall) :
    (readOutcome a retval call).event.src.pathKey = call.event.src.pathKey ∧
      (readOutcome a retval call).event.src.pathLength = call.event.src.pathLength ∧
      (readOutcome a retval call).event.target.pathKey = call.event.target.pathKey ∧
      (readOutcome a retval call).event.target.pathLength = call.event.target.pathLength := by
  unfold readOutcome
  simp only
  split <;> exact ⟨rfl, rfl, rfl, rfl⟩

theorem target_readOutcome (a : Accessor) (h : call.event.kind.hasTarget = false) :
    (readOutcome a retval call).event.target = call.event.target := by
  unfold readOutcome
  simp only
  split
  · rfl
  · next hkind => simp [hkind, Kind.hasTarget] at h
  · next hkind => simp [hkind, Kind.hasTarget] at h
  · rfl

theorem kind_report : (report s retval call mode).event.kind = call.event.kind :=
  (reports_readOutcome (s.view 0)).kind_eq

theorem target_report (h : call.event.kind.hasTarget = false) :
    (report s retval call mode).event.target = call.event.target := by
  have hkind : (readOutcome (s.view 0) retval call).event.kind = call.event.kind :=
    (reports_readOutcome _).kind_eq
  simp only [report, targetOf, hkind, h, target_readOutcome _ h]
  rfl

theorem sourceOf_inline (a : Accessor) :
    sourceOf { s with view := s.view.later 1 }
        (readOutcome a retval (parked .inlineBuffer s₀ i₀ args)) .inlineBuffer =
      (.inline (sourceBytes s₀ i₀ args s).length, sourceBytes s₀ i₀ args s) := by
  have hpath : (readOutcome a retval (parked .inlineBuffer s₀ i₀ args)).srcPath = _ :=
    srcPath_readOutcome a
  unfold sourceBytes
  by_cases hrename : args.kind = .rename
  · have hparked : parked .inlineBuffer s₀ i₀ args = _ := parked_of_rename hrename
    rw [sourceOf_embedded (hpath.trans (congrArg PendingCall.srcPath hparked)), if_pos hrename]
  · rw [sourceOf_unresolved (hpath.trans (srcPath_parked_of_ne hrename)), if_neg hrename,
      srcEntry_readOutcome, srcEntry_parked]
    rfl

theorem targetOf_inline (a : Accessor) :
    targetOf { s with view := s.view.later 1 } (sourceBytes s₀ i₀ args s).length
        (readOutcome a retval (parked .inlineBuffer s₀ i₀ args)) .inlineBuffer =
      (if args.kind.hasTarget then .inline (targetBytes s₀ i₀ args s).length else .unresolved,
        targetBytes s₀ i₀ args s) := by
  have hkind : (readOutcome a retval (parked .inlineBuffer s₀ i₀ args)).event.kind = args.kind :=
    (reports_readOutcome a).kind_eq.trans kind_parked
  unfold targetOf targetBytes
  rw [hkind, targetEntry_readOutcome, targetEntry_parked]
  split
  · simp only [View.later_later]
    rfl
  · rfl

theorem length_sourceBytes_le : (sourceBytes s₀ i₀ args s).length ≤ pathBufferSize := by
  have hlength : ∀ levels, (pathBytes pathBufferSize 0 levels).length ≤ pathBufferSize := by
    intro levels
    have hle : 0 + (pathBytes pathBufferSize 0 levels).length ≤ _ :=
      length_pathBytes_le (Nat.zero_le _)
    rwa [Nat.zero_add, Nat.min_self] at hle
  unfold sourceBytes
  simp only
  split
  · exact (embed_isPrefix _).2.trans (by decide)
  · exact hlength _

theorem length_targetBytes_le :
    (sourceBytes s₀ i₀ args s).length + (targetBytes s₀ i₀ args s).length ≤ pathBufferSize := by
  have hsource : (sourceBytes s₀ i₀ args s).length ≤ min pathBufferSize pathBufferSize :=
    (length_sourceBytes_le).trans_eq (Nat.min_self _).symm
  unfold targetBytes
  simp only
  split
  · exact (length_pathBytes_le hsource).trans_eq (Nat.min_self _)
  · exact length_sourceBytes_le

/-- Bytes follow the record: those of the source and those of the target. -/
theorem followedBy_report :
    (report s retval (parked .inlineBuffer s₀ i₀ args) .inlineBuffer).FollowedBy
      (sourceBytes s₀ i₀ args s) (targetBytes s₀ i₀ args s) := by
  obtain ⟨hsrcKey, -, htargetKey, htargetLength⟩ :=
    paths_readOutcome (s.view 0) retval (parked .inlineBuffer s₀ i₀ args)
  rw [src_pathKey_parked, if_neg (by simp)] at hsrcKey
  rw [target_parked] at htargetKey htargetLength
  simp only [report, sourceOf_inline, targetOf_inline]
  -- without a target, its length and its bytes stay as they were at the start
  have hlength : ∀ e : Endpoint, e.pathLength = 0 →
      (e.recordPath (if args.kind.hasTarget then .inline (targetBytes s₀ i₀ args s).length
        else .unresolved)).pathLength = (targetBytes s₀ i₀ args s).length := by
    intro e he
    split
    · rfl
    · next hnone =>
      rw [targetBytes, if_neg hnone]
      exact he
  have hkey : ∀ e : Endpoint, (e.recordPath (if args.kind.hasTarget then
      .inline (targetBytes s₀ i₀ args s).length else .unresolved)).pathKey = e.pathKey := by
    intro e
    split <;> rfl
  refine ⟨hsrcKey, (hkey _).trans htargetKey, ?_, ?_, ?_⟩
  · rw [List.length_append]
    exact congrArg _ (hlength _ htargetLength).symm
  · rw [List.length_append]
    exact length_targetBytes_le
  · exact Emission.split_of_append rfl rfl (hlength _ htargetLength)

/-- Where paths are stored as chains, the record is the event alone. -/
theorem report_fragmentStore :
    report s retval (parked .fragmentStore s₀ i₀ args) .fragmentStore =
      ⟨(readOutcome (s.view 0) retval (parked .fragmentStore s₀ i₀ args)).event, []⟩ := by
  have hpath : (readOutcome (s.view 0) retval (parked .fragmentStore s₀ i₀ args)).srcPath = _ :=
    srcPath_readOutcome _
  -- both paths are found from a location
  obtain ⟨leaf, hsource⟩ : ∃ leaf, sourceOf { s with view := s.view.later 1 }
      (readOutcome (s.view 0) retval (parked .fragmentStore s₀ i₀ args)) .fragmentStore =
        (.chain leaf, []) := by
    by_cases hrename : args.kind = .rename
    · have hparked : parked .fragmentStore s₀ i₀ args = _ := parked_of_rename hrename
      exact ⟨_, sourceOf_chain (hpath.trans (congrArg PendingCall.srcPath hparked)) _⟩
    · exact ⟨_, sourceOf_unresolved (hpath.trans (srcPath_parked_of_ne hrename)) _⟩
  have htarget : ∀ s start call, (targetOf s start call .fragmentStore).2 = [] ∧
      ∀ e : Endpoint, e.recordPath (targetOf s start call .fragmentStore).1 = e := by
    intro s start call
    unfold targetOf
    split
    · exact ⟨rfl, fun e => rfl⟩
    · exact ⟨rfl, fun e => rfl⟩
  simp only [report, hsource, (htarget _ _ _).1, (htarget _ _ _).2]
  rfl

/-- No bytes follow the record, and only the source of a rename has a key. -/
theorem located_report :
    (report s retval (parked .fragmentStore s₀ i₀ args) .fragmentStore).Located := by
  obtain ⟨hsrcKey, hsrcLength, htargetKey, htargetLength⟩ :=
    paths_readOutcome (s.view 0) retval (parked .fragmentStore s₀ i₀ args)
  rw [src_pathKey_parked] at hsrcKey
  rw [src_pathLength_parked] at hsrcLength
  rw [target_parked] at htargetKey htargetLength
  rw [report_fragmentStore]
  refine ⟨rfl, hsrcLength, htargetLength, htargetKey, ?_⟩
  have hkind : (readOutcome (s.view 0) retval (parked .fragmentStore s₀ i₀ args)).event.kind =
      args.kind := (reports_readOutcome _).kind_eq.trans kind_parked
  show (readOutcome _ _ _).event.src.pathKey ≠ 0 ↔ (readOutcome _ _ _).event.kind = _
  rw [hsrcKey, hkind]
  by_cases hrename : args.kind = .rename
  · simp [hrename, (s₀.drawn 0).ne_zero]
  · simp [hrename]

/-- The key and the path that are stored for the source. -/
def storedSource (s₀ : Surroundings) (i₀ : Invocation) (args : Arguments) (s : Surroundings) :
    UInt32 × WholePath :=
  let source := (args.captured (s₀.view 0) i₀.caller).srcEntry
  if args.kind = .rename then ((s₀.drawn 0).key, wholePath (s₀.view.later 2) source)
  else ((s.drawn 0).key, wholePath (s.view.later 1) source)

/-- The key and the path that are stored for the target, if there is one. -/
def storedTarget (s₀ : Surroundings) (i₀ : Invocation) (args : Arguments) (s : Surroundings) :
    UInt32 × WholePath :=
  let target := (args.captured (s₀.view 0) i₀.caller).targetEntry
  ((s.drawn 1).key, wholePath (s.view.later (1 + maxPathDepth)) target)

theorem refersTo_recordPath {endpoint : Endpoint} {drawn : DrawnKey} {view : View} {d : Handle} :
    (endpoint.recordPath (.keyed drawn.key (wholePath view d).length)).RefersTo
      (wholePath view d) where
  pathKey_ne := drawn.ne_zero
  pathLength_eq := rfl
  length_le := by
    show (wholePath view d).length ≤ wholePathSize
    rw [WholePath.length, bytes_wholePath]
    exact length_pathBytes_le_whole view d

/-- No bytes follow the record, and its keys are those under which the paths are stored. -/
theorem refersTo_report (s₀ : Surroundings) (i₀ : Invocation) (args : Arguments)
    (s : Surroundings) (retval : Int64) :
    let e := report s retval (parked .singleFragment s₀ i₀ args) .singleFragment
    e.paths = [] ∧
      (e.event.src.pathKey = (storedSource s₀ i₀ args s).1 ∧
        e.event.src.RefersTo (storedSource s₀ i₀ args s).2) ∧
      (args.kind.hasTarget = true → e.event.target.pathKey = (storedTarget s₀ i₀ args s).1 ∧
        e.event.target.RefersTo (storedTarget s₀ i₀ args s).2) := by
  have hpath : (readOutcome (s.view 0) retval (parked .singleFragment s₀ i₀ args)).srcPath = _ :=
    srcPath_readOutcome _
  have hkind : (readOutcome (s.view 0) retval (parked .singleFragment s₀ i₀ args)).event.kind =
      args.kind := (reports_readOutcome _).kind_eq.trans kind_parked
  have hnone : ∀ start, (targetOf { s with view := s.view.later 1 } start
      (readOutcome (s.view 0) retval (parked .singleFragment s₀ i₀ args)) .singleFragment).2 =
        [] := by
    intro start
    unfold targetOf
    split <;> rfl
  have htarget : ∀ start, args.kind.hasTarget = true →
      (targetOf { s with view := s.view.later 1 } start
        (readOutcome (s.view 0) retval (parked .singleFragment s₀ i₀ args)) .singleFragment).1 =
          .keyed (storedTarget s₀ i₀ args s).1 (storedTarget s₀ i₀ args s).2.length := by
    intro start h
    rw [targetOf, if_pos (hkind ▸ h), targetEntry_readOutcome, targetEntry_parked]
    simp only [View.later_later]
    rfl
  have hsource : sourceOf { s with view := s.view.later 1 }
      (readOutcome (s.view 0) retval (parked .singleFragment s₀ i₀ args)) .singleFragment =
        (.keyed (storedSource s₀ i₀ args s).1 (storedSource s₀ i₀ args s).2.length, []) := by
    unfold storedSource
    by_cases hrename : args.kind = .rename
    · have hparked : parked .singleFragment s₀ i₀ args = _ := parked_of_rename hrename
      rw [sourceOf_keyed (hpath.trans (congrArg PendingCall.srcPath hparked)), if_pos hrename]
    · rw [sourceOf_unresolved (hpath.trans (srcPath_parked_of_ne hrename)), if_neg hrename,
        srcEntry_readOutcome, srcEntry_parked]
      rfl
  simp only [report, hsource, hnone, List.append_nil, true_and]
  refine ⟨⟨rfl, ?_⟩, fun h => ?_⟩
  · unfold storedSource
    simp only
    split <;> exact refersTo_recordPath
  · rw [htarget _ h]
    exact ⟨rfl, refersTo_recordPath⟩

theorem exists_wholePaths {r : Resolver} (h : r.mode = .singleFragment) :
    ∃ table, r = .singleFragment table := by
  cases r with
  | singleFragment table => exact ⟨table, rfl⟩
  | _ => cases h

/-- What the start of a rename stores for its source, and what the return stores. -/
theorem stores_report (s : Surroundings) (retval : Int64)
    (hmode : p.resolver.mode = .singleFragment) {before : List Step}
    (haccepts : (p.after before).Accepts s₀ i₀ args)
    (hcall : (p.after steps).pending.peek? i.caller.threadKey =
      some (parked .singleFragment s₀ i₀ args)) :
    (args.kind = .rename →
      (p.after before).Stores (.enter s₀ i₀ args) [storedSource s₀ i₀ args s]) ∧
    (p.after steps).Stores (.exit s i retval)
      ((if args.kind = .rename then [] else [storedSource s₀ i₀ args s]) ++
        if args.kind.hasTarget then [storedTarget s₀ i₀ args s] else []) := by
  have hmode' : ∀ steps, (p.after steps).resolver.mode = .singleFragment :=
    fun steps => mode_after.trans hmode
  obtain ⟨table, htable⟩ := exists_wholePaths (hmode' before)
  obtain ⟨table', htable'⟩ := exists_wholePaths (hmode' steps)
  refine ⟨fun hrename => ?_, ?_⟩
  · rw [storedSource, if_pos hrename]
    exact stores_enter htable haccepts hrename
  · have hstores := stores_exit s retval htable' hcall
    rw [kind_parked, srcEntry_parked, targetEntry_parked] at hstores
    by_cases hrename : args.kind = .rename
    · have hparked : parked .singleFragment s₀ i₀ args = _ := parked_of_rename hrename
      have hbrought : (parked .singleFragment s₀ i₀ args).srcPath ≠ .unresolved := by
        rw [congrArg PendingCall.srcPath hparked]
        exact PathRef.noConfusion
      rw [if_neg hbrought] at hstores
      rw [if_pos hrename]
      exact hstores
    · rw [if_pos (srcPath_parked_of_ne hrename)] at hstores
      rw [if_neg hrename, storedSource, if_neg hrename]
      exact hstores

/-- A return with an outstanding start gives the record of the call that was parked then. -/
theorem exit_of_outstanding (s : Surroundings) (retval : Int64)
    (hmode : p.modes.resolution = p.resolver.mode)
    (h : p.Outstanding steps i.caller.thread s₀ i₀ args) :
    ((p.after steps).exit s i retval).1 =
      some (report s retval (parked p.resolver.mode s₀ i₀ args) p.resolver.mode) := by
  have hcall := peek?_of_outstanding hmode h
  rw [Caller.key_thread] at hcall
  have hsame : (p.after steps |>.takeOut i).resolver.mode = p.resolver.mode := mode_after
  rw [exit_eq hcall, ← hsame]
  exact congrArg some (fst_finish (fits_parked _))

/-- **Records in every mode.** Each record is that of an accepted start, and of a kind that is
traced. What it says of its paths fits together:
* either the bytes of the source's path follow it and then those of the target's, with the lengths
  in the record, and no keys;
* or no bytes follow it, and its keys and lengths are those of the paths that were stored whole:
  the source's of a rename when it started, all others when it returned;
* or no bytes follow it, there are no lengths, and only the source of a rename has a key.
Without a target, all that the record could say of one is zero. -/
theorem emission_consistent {config : Config} {processors : Nat} {e : Emission}
    (hnew : Probe.new config processors = .ok p)
    (h : ((p.after steps).exit s i retval).1 = some e) :
    ∃ before s₀ i₀ args between, steps = before ++ .enter s₀ i₀ args :: between ∧
      i₀.caller.thread = i.caller.thread ∧ (p.after before).Accepts s₀ i₀ args ∧
      e.event.kind = args.kind ∧ e.event.kind ∈ config.enabledKinds.1 ∧
      (e.event.kind.hasTarget = false → e.event.target = {}) ∧
      match config.resolutionMode with
      | .inlineBuffer => e.FollowedBy (sourceBytes s₀ i₀ args s) (targetBytes s₀ i₀ args s)
      | .singleFragment => e.paths = [] ∧ ∃ source target : WholePath,
          e.event.src.RefersTo source ∧
          (e.event.kind.hasTarget = true → e.event.target.RefersTo target) ∧
          (e.event.kind = .rename → (p.after before).Stores (.enter s₀ i₀ args)
            [(e.event.src.pathKey, source)]) ∧
          (p.after steps).Stores (.exit s i retval)
            ((if e.event.kind = .rename then [] else [(e.event.src.pathKey, source)]) ++
              if e.event.kind.hasTarget then [(e.event.target.pathKey, target)] else [])
      | .fragmentStore => e.Located := by
  obtain ⟨hmodes, -, -⟩ := fields_of_new hnew
  have hresolver := resolver_of_new hnew
  have hmode : p.resolver.mode = config.resolutionMode := by
    rw [hresolver, Resolver.mode_new]
  have hsame : p.modes.resolution = p.resolver.mode := by
    rw [hmodes, hmode]
    rfl
  obtain ⟨s₀, i₀, args, houtstanding⟩ := (exit_isSome_iff (peek?_of_new hnew)).1
    (Option.isSome_of_mem h)
  have he := exit_of_outstanding s retval hsame houtstanding
  obtain rfl := Option.some.inj (h.symm.trans he)
  have hcall := peek?_of_outstanding hsame houtstanding
  obtain ⟨before, between, hsteps, hthread, haccepts, -⟩ := houtstanding
  rw [hmode] at hcall ⊢
  have hkind : (report s retval (parked config.resolutionMode s₀ i₀ args)
      config.resolutionMode).event.kind = args.kind := kind_report.trans kind_parked
  refine ⟨before, s₀, i₀, args, between, hsteps, hthread, haccepts, hkind, ?_,
    fun htarget => ?_, ?_⟩
  · have hcontains := haccepts.1
    rw [modes_after, hmodes] at hcontains
    rw [hkind]
    exact (KindSet.contains_ofList _ _).mp hcontains
  · rw [target_report, target_parked]
    exact kind_parked.symm ▸ hkind ▸ htarget
  · cases hconfig : config.resolutionMode with
    | inlineBuffer => exact followedBy_report
    | fragmentStore => exact located_report
    | singleFragment =>
      rw [hconfig] at hkind hcall hmode
      rw [Caller.key_thread] at hcall
      obtain ⟨hpaths, ⟨hsourceKey, hsource⟩, htarget⟩ := refersTo_report s₀ i₀ args s retval
      obtain ⟨hstart, hreturn⟩ := stores_report s retval hmode haccepts hcall
      rw [← hkind] at hstart hreturn htarget
      have hsourceStored : storedSource s₀ i₀ args s = (_, (storedSource s₀ i₀ args s).2) :=
        Prod.ext hsourceKey.symm rfl
      have htargetStored : ∀ h, storedTarget s₀ i₀ args s = (_, (storedTarget s₀ i₀ args s).2) :=
        fun h => Prod.ext (htarget h).1.symm rfl
      refine ⟨hpaths, (storedSource s₀ i₀ args s).2, (storedTarget s₀ i₀ args s).2, hsource,
        fun h => (htarget h).2, ?_, ?_⟩
      · rwa [hsourceStored] at hstart
      · rw [hsourceStored] at hreturn
        by_cases hany : (report s retval (parked .singleFragment s₀ i₀ args)
            .singleFragment).event.kind.hasTarget = true
        · rwa [htargetStored hany] at hreturn
        · rwa [if_neg hany] at hreturn ⊢

/-- An entry that another name is added for, with both paths stored whole. -/
theorem emission_consistent_link :
    ∃ p e, Probe.new { resolutionMode := .singleFragment, filteringEnabled := false } 1 = .ok p ∧
      ((p.after [.enter plain {} (.link ⟨1⟩ ⟨0⟩ ⟨2⟩)]).exit plain {} 0).1 = some e ∧
      e.paths = [] ∧ e.event.src.pathKey ≠ 0 ∧ e.event.target.pathKey ≠ 0 := by
  obtain ⟨p, hnew⟩ : ∃ p,
    Probe.new { resolutionMode := .singleFragment, filteringEnabled := false } 1 = .ok p := ⟨_, rfl⟩
  have haccepts : p.Accepts plain {} (.link ⟨1⟩ ⟨0⟩ ⟨2⟩) := by
    obtain ⟨hmodes, -, hwatched⟩ := fields_of_new hnew
    refine ⟨hmodes ▸ by decide, rfl, Or.inl (Or.inl ?_)⟩
    rw [hwatched]
    rfl
  have houtstanding : p.Outstanding [.enter plain {} (.link ⟨1⟩ ⟨0⟩ ⟨2⟩)]
      (Invocation.caller {}).thread plain {} (.link ⟨1⟩ ⟨0⟩ ⟨2⟩) := ⟨[], [], rfl, rfl, haccepts, id⟩
  have hreturn : ∃ e, ((p.after [.enter plain {} (.link ⟨1⟩ ⟨0⟩ ⟨2⟩)]).exit plain {} 0).1 = some e ∧
      e.event.Reports _ 0 := reports_of_outstanding houtstanding
  obtain ⟨e, he, hreports⟩ := hreturn
  obtain ⟨_, _, _, _, _, -, -, -, -, -, -, hpaths, _, _, hsource, htarget, -⟩ :=
    emission_consistent hnew he
  have hkind : e.event.kind = .link := hreports.kind_eq
  exact ⟨p, e, hnew, he, hpaths, hsource.pathKey_ne,
    (htarget (by rw [hkind]; rfl)).pathKey_ne⟩

end Probe

end FsTrace
