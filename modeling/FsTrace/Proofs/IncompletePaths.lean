import FsTrace.Proofs.CallAccounts
import FsTrace.Proofs.CarriedPaths

/-!
# Paths that are counted as incomplete

When a path becomes part of its record, what does not find room is left out, and so is what lies
beyond the greatest depth. A probe counts such paths. The source of a rename can be cut twice: when
it is resolved, and again when its path is made to travel with the call.

* `segmentsUp`: the names on the way up, as they would be written with room for all of them;
* `ResolvedPath`, `ResolvedPath.Lacks`: a path that lacks one of these names.
  `ResolvedPath.Incomplete`: it does, or the depth was used up. `ResolvedPath.incomplete_iff`: a
  path without a boundary lacks a name, unless what comes next has none;
* `cutShort_iff`: just the incomplete paths are cut short;
* `Probe.resolved`: the paths that are resolved in a step, as they are carried or recorded;
  `Probe.CutTwice`: the source of a rename is cut twice;
* `Probe.truncatedPaths_next`: what a step adds to the count, and `Probe.counted_twice`.
-/

namespace FsTrace

variable {view : View} {d : Handle} {buffer : NameBuffer} {depth m n limit start : Nat}

/-! ### The way up -/

theorem climb_isPrefix_succ (view : View) (d : Handle) (buffer : NameBuffer) (depth : Nat) :
    climb view d buffer depth <+: climb view d buffer (depth + 1) := by
  induction depth generalizing view d buffer with
  | zero => exact List.nil_prefix
  | succ depth ih =>
    rw [climb, climb]
    simp only
    split
    · exact List.prefix_rfl
    · exact List.cons_prefix_cons.2 ⟨rfl, ih _ _ _⟩

/-- The way up is the front of one with more depth. -/
theorem climb_isPrefix (h : m ≤ n) : climb view d buffer m <+: climb view d buffer n := by
  induction n, h using Nat.le_induction with
  | base => exact List.prefix_rfl
  | succ n _ ih => exact ih.trans (climb_isPrefix_succ view d buffer n)

/-- Beyond a boundary, more depth makes no difference. -/
theorem climb_of_boundary (h : ∃ level ∈ climb view d buffer m, level.isBoundary = true)
    (hle : m ≤ n) : climb view d buffer n = climb view d buffer m := by
  induction m generalizing view d buffer n with
  | zero =>
    obtain ⟨level, hlevel, -⟩ := h
    cases hlevel
  | succ m ih =>
    obtain ⟨n, rfl⟩ := Nat.exists_eq_succ_of_ne_zero (Nat.ne_zero_of_lt hle)
    rw [climb] at h
    rw [climb, climb]
    simp only at h ⊢
    split
    · rfl
    · next hinner =>
      rw [if_neg hinner] at h
      obtain ⟨level, hlevel, hboundary⟩ := h
      rcases List.mem_cons.1 hlevel with rfl | hlevel
      · exact absurd hboundary hinner
      · rw [ih ⟨level, hlevel, hboundary⟩ (Nat.le_of_succ_le_succ hle)]

/-- Without a boundary, the way up goes on to the next entry. -/
theorem climb_succ_of_inner (h : ∀ level ∈ climb view d buffer depth, level.isBoundary = false) :
    ∃ level, climb view d buffer (depth + 1) = climb view d buffer depth ++ [level] := by
  induction depth generalizing view d buffer with
  | zero => exact ⟨(readLevel (view 0) d buffer).1, ite_self _⟩
  | succ depth ih =>
    rw [climb] at h
    simp only at h
    rw [climb, climb]
    simp only
    split
    · next hboundary =>
      rw [if_pos hboundary] at h
      exact absurd hboundary (Bool.not_eq_true _ ▸ h _ (List.mem_singleton_self _))
    · next hinner =>
      rw [if_neg hinner] at h
      obtain ⟨level, hnext⟩ := ih (List.forall_mem_cons.1 h).2
      exact ⟨level, by rw [hnext, List.cons_append]⟩

/-- The names of the entries on the way up, of at most so many, as they are written one after
another. -/
def segmentsUp (view : View) (d : Handle) (depth : Nat) : Bytes :=
  (((climb view d (.zero _) depth).map (·.name)).filter (· ≠ [])).flatMap PathBuffer.segment

theorem segmentsUp_isPrefix (h : m ≤ n) : segmentsUp view d m <+: segmentsUp view d n :=
  (((climb_isPrefix h).map _).filter _).flatMap _

/-! ### Incomplete paths -/

/-- A path of an entry, with what was read on the way up and the bytes that there are of it. -/
structure ResolvedPath where
  view : View
  entry : Handle
  bytes : Bytes

namespace ResolvedPath

/-- The path lacks a name of an entry on the way up, however far that is. -/
def Lacks (r : ResolvedPath) : Prop :=
  ∃ depth, ¬ segmentsUp r.view r.entry depth <+: r.bytes

/-- Between its entry and the boundary, a part of the path is missing: a name, or whatever is above
the last entry that the depth allows. -/
def Incomplete (r : ResolvedPath) : Prop :=
  r.Lacks ∨ ∀ level ∈ ascent r.view r.entry, level.isBoundary = false

/-- A path without a boundary lacks a name, unless the next entry has none. -/
theorem incomplete_iff {r : ResolvedPath}
    (hbytes : r.bytes <+: segmentsUp r.view r.entry maxPathDepth) :
    r.Incomplete ↔ r.Lacks ∨ ∃ level,
      climb r.view r.entry (.zero _) (maxPathDepth + 1) = ascent r.view r.entry ++ [level] ∧
        level.name = [] ∧ ∀ level ∈ ascent r.view r.entry, level.isBoundary = false := by
  constructor
  · rintro (hlacks | hopen)
    · exact Or.inl hlacks
    obtain ⟨level, hnext⟩ := climb_succ_of_inner hopen
    by_cases hname : level.name = []
    · exact Or.inr ⟨level, hnext, hname, hopen⟩
    -- the name of the next entry is not in the path
    refine Or.inl ⟨maxPathDepth + 1, fun hwithin => ?_⟩
    have hlength := (hwithin.trans hbytes).length_le
    rw [segmentsUp, hnext, segmentsUp, ← ascent, List.map_append, List.filter_append,
      List.flatMap_append, List.length_append] at hlength
    simp [hname, PathBuffer.segment] at hlength
  · rintro (hlacks | ⟨level, -, -, hopen⟩)
    · exact Or.inl hlacks
    · exact Or.inr hopen

end ResolvedPath

theorem WrittenFront.filter_take {names : List Bytes} {count : Nat}
    (h : WrittenFront limit start names count) :
    (names.take count).filter (· ≠ []) = names.take count := by
  refine List.filter_eq_self.2 fun name hname => decide_eq_true ?_
  obtain ⟨k, hk⟩ := List.mem_iff_getElem?.1 hname
  rw [List.getElem?_take] at hk
  split at hk
  · next hlt => exact h.named k name hlt hk
  · cases hk

/-- A name that is next to the written ones is not among them. -/
theorem WrittenFront.lt_length {names : List Bytes} {count : Nat} {name : Bytes}
    (h : WrittenFront limit start names count) (hname : names[count]? = some name)
    (hne : name ≠ []) :
    ((names.take count).flatMap PathBuffer.segment).length <
      ((names.filter (· ≠ [])).flatMap PathBuffer.segment).length := by
  have hlonger : names.take count ++ [name] <+: names.filter (· ≠ []) := by
    have hfilter := (List.take_prefix (count + 1) names).filter (· ≠ [])
    rwa [List.take_add_one, hname, Option.toList_some, List.filter_append, h.filter_take,
      List.filter_singleton, decide_eq_true hne, cond_true] at hfilter
  refine lt_of_lt_of_le ?_ (hlonger.flatMap PathBuffer.segment).length_le
  rw [List.flatMap_append, List.length_append, List.flatMap_singleton, PathBuffer.segment,
    List.length_append, List.length_singleton]
  omega

/-- What follows the written names, if it is not a name, is a boundary without one, or nothing. -/
theorem filter_names_eq {levels : List Level} {count : Nat}
    (hinner : ∀ level ∈ levels.dropLast, level.isBoundary = false)
    (hfront : WrittenFront limit start (levels.map (·.name)) count)
    (hnext : ¬ ∃ name, (levels.map (·.name))[count]? = some name ∧ name ≠ []) :
    (levels.map (·.name)).filter (· ≠ []) = (levels.map (·.name)).take count := by
  have hrest : ((levels.map (·.name)).drop count).filter (· ≠ []) = [] := by
    refine List.filter_eq_nil_iff.2 fun name hname => ?_
    obtain ⟨k, hk⟩ := List.mem_iff_getElem?.1 hname
    rw [List.getElem?_drop] at hk
    have hunnamed : ∀ name, (levels.map (·.name))[count]? = some name → name = [] := by
      intro name hname
      by_contra hne
      exact hnext ⟨name, hname, hne⟩
    cases k with
    | zero => simp [hunnamed name hk]
    | succ k =>
      -- an entry that is not the last one has a name
      exfalso
      obtain ⟨hlt, -⟩ := List.getElem?_eq_some_iff.1 hk
      rw [List.length_map] at hlt
      have hcount : count < levels.dropLast.length := by
        rw [List.length_dropLast]
        omega
      have hinner := hinner _ (List.getElem_mem hcount)
      rw [List.getElem_dropLast] at hinner
      refine name_ne_nil_of_inner hinner (hunnamed _ ?_)
      rw [List.getElem?_map, List.getElem?_eq_getElem (by omega)]
      rfl
  calc (levels.map (·.name)).filter (· ≠ [])
      = ((levels.map (·.name)).take count ++ (levels.map (·.name)).drop count).filter (· ≠ []) := by
        rw [List.take_append_drop]
    _ = (levels.map (·.name)).take count := by
        rw [List.filter_append, hfront.filter_take, hrest, List.append_nil]

/-- **Which paths are cut short.** A path in a buffer is cut short just when it is incomplete. -/
theorem cutShort_iff (view : View) (d : Handle) (limit start : Nat) :
    cutShort limit start (ascent view d) = true ↔
      (⟨view, d, pathBytes limit start (ascent view d)⟩ : ResolvedPath).Incomplete := by
  have hinner : ∀ level ∈ (ascent view d).dropLast, level.isBoundary = false :=
    fun level hlevel => inner_of_mem_dropLast_climb hlevel
  obtain ⟨count, hfront, hnames, hcut⟩ := @exists_writtenFront limit _ hinner start
  have hbytes : pathBytes limit start (ascent view d) =
      (((ascent view d).map (·.name)).take count).flatMap PathBuffer.segment := by
    rw [pathBytes_eq, hnames]
  rw [hcut]
  constructor
  · rintro (⟨name, hname, hne⟩ | hopen)
    · -- the next name is not in the path
      refine Or.inl ⟨maxPathDepth, fun hwithin => ?_⟩
      rw [hbytes] at hwithin
      exact absurd (hfront.lt_length hname hne) (Nat.not_lt.2 hwithin.length_le)
    · exact Or.inr hopen
  · rintro (⟨depth, hlacks⟩ | hopen)
    · by_contra hnone
      obtain ⟨hnext, hclosed⟩ := not_or.1 hnone
      have hboundary : ∃ level ∈ ascent view d, level.isBoundary = true := by
        simpa using hclosed
      refine hlacks ((segmentsUp_isPrefix (le_max_left depth maxPathDepth)).trans ?_)
      have hclimb : climb view d (.zero _) (max depth maxPathDepth) = ascent view d :=
        climb_of_boundary hboundary (le_max_right _ _)
      rw [segmentsUp, hclimb, filter_names_eq hinner hfront hnext, ← hbytes]
    · exact Or.inr hopen

/-- A path holds names of the entries on the way up. -/
theorem pathBytes_isPrefix (limit start : Nat) (view : View) (d : Handle) :
    pathBytes limit start (ascent view d) <+: segmentsUp view d maxPathDepth := by
  obtain ⟨count, hfront, hnames, -⟩ := @exists_writtenFront limit (ascent view d)
    (fun level hlevel => inner_of_mem_dropLast_climb hlevel) start
  rw [pathBytes_eq, hnames, ← hfront.filter_take]
  exact ((List.take_prefix count _).filter _).flatMap _

/-- Of a path that is cut to travel with a call, a name is missing. -/
theorem lacks_embed (hlong : wholePathSize < (pathBytes limit start (ascent view d)).length) :
    (⟨view, d, (embed (pathBytes limit start (ascent view d))).1.bytes⟩ : ResolvedPath).Lacks := by
  refine ⟨maxPathDepth, fun hwithin => ?_⟩
  have hall := ((pathBytes_isPrefix limit start view d).trans hwithin).length_le
  have hcut := (embed_isPrefix (pathBytes limit start (ascent view d))).2
  exact absurd hlong (Nat.not_lt.2 (hall.trans hcut))

theorem snd_embed (bytes : Bytes) : (embed bytes).2 = decide (wholePathSize < bytes.length) := by
  unfold embed
  split
  · next hfits => exact (decide_eq_false (Nat.not_lt.2 hfits)).symm
  · next hlong => exact (decide_eq_true (Nat.lt_of_not_le hlong)).symm

open scoped Classical in
/-- How often a path in a buffer is counted: once if it is cut short. -/
theorem countP_pathBytes (view : View) (d : Handle) (limit start : Nat) :
    [(⟨view, d, pathBytes limit start (ascent view d)⟩ : ResolvedPath)].countP (·.Incomplete) =
      (cutShort limit start (ascent view d)).toNat := by
  rw [List.countP_singleton]
  simp only [decide_eq_true_eq, ← cutShort_iff]
  cases cutShort limit start (ascent view d) <;> rfl

open scoped Classical in
/-- How often a path is counted that is resolved to travel with a call: once more if it is cut for
that after it was cut short. -/
theorem countP_embed (view : View) (d : Handle) :
    let bytes := pathBytes pathBufferSize 0 (ascent view d)
    let cut := cutShort pathBufferSize 0 (ascent view d)
    [(⟨view, d, (embed bytes).1.bytes⟩ : ResolvedPath)].countP (·.Incomplete) +
        (if cut = true ∧ wholePathSize < bytes.length then 1 else 0) =
      cut.toNat + (decide (wholePathSize < bytes.length)).toNat := by
  intro bytes cut
  by_cases hlong : wholePathSize < bytes.length
  · have hincomplete : (⟨view, d, (embed bytes).1.bytes⟩ : ResolvedPath).Incomplete :=
      Or.inl (lacks_embed hlong)
    rw [List.countP_singleton, if_pos (decide_eq_true hincomplete), decide_eq_true hlong]
    simp only [hlong, and_true]
    cases cut <;> rfl
  · rw [bytes_embed_of_le (Nat.not_lt.1 hlong), if_neg fun h => hlong h.2, decide_eq_false hlong]
    exact countP_pathBytes view d pathBufferSize 0

namespace Probe

/-! ### What is resolved in a step -/

/-- The paths that are resolved in a step. Of the source of a rename, this is what is carried with
the call; of the others, what follows the record. -/
def resolved (p : Probe) : Step → List ResolvedPath
  | .enter s i args =>
    if p.Accepts s i args ∧ args.kind = .rename then
      match (p.enter s i args).pending.peek? i.caller.threadKey with
      | some { srcEntry, srcPath := .embedded path, .. } =>
        [⟨s.view.later 2, srcEntry, path.bytes⟩]
      | _ => []
    else []
  | .exit s i retval =>
    match p.pending.peek? i.caller.threadKey, (p.exit s i retval).1 with
    | some call, some e =>
      (if call.srcPath = .unresolved then [⟨s.view.later 1, call.srcEntry, e.split.1⟩] else []) ++
        if call.event.kind.hasTarget then
          [⟨s.view.later (1 + maxPathDepth), call.targetEntry, e.split.2⟩]
        else []
    | _, _ => []
  | .watch _ => []

/-- The source of a rename is cut short when it is resolved, and what there is of it is still too
long to travel with the call. -/
def CutTwice (p : Probe) : Step → Prop
  | .enter s i args =>
    p.Accepts s i args ∧ args.kind = .rename ∧
      let path := writePath (s.view.later 2) .empty
        (args.captured (s.view 0) i.caller).srcEntry pathBufferSize
      path.truncated = true ∧ wholePathSize < path.paths.filled.length
  | _ => False

variable {p : Probe} {s s₀ : Surroundings} {i i₀ : Invocation} {args : Arguments} {retval : Int64}
  {call : PendingCall} {paths : PathBuffer} {steps : List Step} {step : Step}

/-! ### What is counted -/

theorem truncatedPaths_countIf (p : Probe) (condition : Bool) :
    (p.countIf condition .truncatedPaths).counters.truncatedPaths =
      p.counters.truncatedPaths + condition.toNat := by
  cases condition <;> rfl

theorem eq_inlineBuffer {r : Resolver} (h : r.mode = .inlineBuffer) : r = .inlineBuffer := by
  cases r with
  | inlineBuffer => rfl
  | _ => cases h

/-- A path that is written to a buffer is counted if it is cut short. -/
theorem truncatedPaths_resolve (hmode : p.resolver.mode = .inlineBuffer) (view : View)
    (drawn : DrawnKey) (paths : PathBuffer) (d : Handle) (leaf : Location) :
    (p.resolve view drawn paths d leaf).2.2.counters.truncatedPaths =
      p.counters.truncatedPaths +
        (cutShort pathBufferSize paths.filled.length (ascent view d)).toNat := by
  have htruncated : (p.resolver.resolve view drawn paths d leaf).truncated =
      cutShort pathBufferSize paths.filled.length (ascent view d) := by
    rw [eq_inlineBuffer hmode]
    exact truncated_writePath _ _ _ _
  rw [← htruncated]
  exact truncatedPaths_countIf { p with resolver := _ } _

/-! ### The start of an operation -/

/-- The source of a rename is counted if it is cut short, and once more if it is too long to travel
with the call. -/
theorem truncatedPaths_resolveRenameSource (hsame : p.modes.resolution = p.resolver.mode)
    (hmode : p.resolver.mode = .inlineBuffer) (hpaths : paths.filled = []) :
    (p.resolveRenameSource s paths call).2.2.counters.truncatedPaths =
      p.counters.truncatedPaths +
        (cutShort pathBufferSize 0 (ascent s.view call.srcEntry)).toNat +
        (decide (wholePathSize <
          (pathBytes pathBufferSize 0 (ascent s.view call.srcEntry)).length)).toNat := by
  have htruncated := truncated_writePath s.view paths call.srcEntry pathBufferSize
  have hfilled := filled_writePath s.view paths call.srcEntry pathBufferSize
  rw [hpaths, List.length_nil] at htruncated hfilled
  rw [List.nil_append] at hfilled
  rw [← htruncated, ← snd_embed, ← hfilled, ← truncatedPaths_countIf, ← truncatedPaths_countIf]
  unfold resolveRenameSource resolve
  rw [hsame, hmode, eq_inlineBuffer hmode]
  rfl

theorem truncatedPaths_enter_rename (hsame : p.modes.resolution = p.resolver.mode)
    (hmode : p.resolver.mode = .inlineBuffer) (haccepts : p.Accepts s i args)
    (hrename : args.kind = .rename) :
    let levels := ascent (s.view.later 2) (args.captured (s.view 0) i.caller).srcEntry
    (p.enter s i args).counters.truncatedPaths =
      p.counters.truncatedPaths + (cutShort pathBufferSize 0 levels).toNat +
        (decide (wholePathSize < (pathBytes pathBufferSize 0 levels).length)).toNat := by
  intro levels
  obtain ⟨watched, -, henter⟩ := enter_of_accepts haccepts
  rw [henter]
  simp only [if_pos hrename]
  rw [truncatedPaths_park]
  exact truncatedPaths_resolveRenameSource (p := { p with watched })
    (s := { s with view := s.view.later 2 }) hsame hmode rfl

/-! ### The return of an operation -/

theorem truncatedPaths_sourcePath (hmode : p.resolver.mode = .inlineBuffer)
    (hpaths : paths.filled = []) :
    (p.sourcePath s paths call).2.2.counters.truncatedPaths =
      p.counters.truncatedPaths +
        if call.srcPath = .unresolved then
          (cutShort pathBufferSize 0 (ascent s.view call.srcEntry)).toNat else 0 := by
  unfold sourcePath
  cases call.srcPath with
  | unresolved =>
    have hresolve := truncatedPaths_resolve hmode s.view (s.drawn 0) paths call.srcEntry
      call.event.srcLocation
    rw [hpaths] at hresolve
    exact hresolve
  | _ => rfl

theorem truncatedPaths_targetPath (hmode : p.resolver.mode = .inlineBuffer) :
    (p.targetPath s paths call).2.2.counters.truncatedPaths =
      p.counters.truncatedPaths +
        if call.event.kind.hasTarget then
          (cutShort pathBufferSize paths.filled.length
            (ascent (s.view.later maxPathDepth) call.targetEntry)).toNat else 0 := by
  have hforget : ∀ leaf, p.resolver.forget leaf = p.resolver := fun leaf => by
    rw [eq_inlineBuffer hmode]
    rfl
  unfold targetPath
  simp only [hforget, ite_self]
  split
  · exact truncatedPaths_resolve hmode _ _ _ _ _
  · rfl

theorem truncatedPaths_finish (hmode : p.resolver.mode = .inlineBuffer)
    (hfits : Fits .inlineBuffer call) :
    let outcome := readOutcome (s.view 0) retval call
    let s' : Surroundings := { s with view := s.view.later 1 }
    (p.finish s i retval call).2.counters.truncatedPaths =
      p.counters.truncatedPaths +
        (if outcome.srcPath = .unresolved then
          (cutShort pathBufferSize 0 (ascent s'.view outcome.srcEntry)).toNat else 0) +
        if outcome.event.kind.hasTarget then
          (cutShort pathBufferSize (sourceOf s' outcome .inlineBuffer).2.length
            (ascent (s'.view.later maxPathDepth) outcome.targetEntry)).toNat else 0 := by
  have hfits' : Fits p.resolver.mode (readOutcome (s.view 0) retval call) := fun path hpath =>
    hmode ▸ hfits path ((srcPath_readOutcome _).symm.trans hpath)
  simp only [finish]
  generalize readOutcome (s.view 0) retval call = call' at hfits'
  generalize hs' : { s with view := s.view.later 1 } = s'
  have hview : s.view.later 1 = s'.view := congrArg Surroundings.view hs'
  have hpaths := PathBuffer.filled_reset (p.scratch.slot i.unit).paths
  generalize (p.scratch.slot i.unit).paths.reset = paths at hpaths
  obtain ⟨-, hfilled⟩ := sourcePath_eq (s := s') hpaths hfits'
  have hmode' : (p.sourcePath s' paths call').2.2.resolver.mode = .inlineBuffer :=
    (congrArg (·.2.1) settings_sourcePath).trans hmode
  rw [hmode] at hfilled
  rw [hview, ← truncatedPaths_sourcePath hmode hpaths, ← hfilled]
  refine (truncatedPaths_countIf_of_ne _ true (by decide)).trans ?_
  refine (truncatedPaths_registerFollowup _).trans ?_
  exact truncatedPaths_targetPath hmode'

theorem truncatedPaths_exit_of_none (h : p.pending.peek? i.caller.threadKey = none) :
    (p.exit s i retval).2.counters.truncatedPaths = p.counters.truncatedPaths := by
  rw [exit_eq_of_none h]
  exact truncatedPaths_countIf_of_ne (p.takeOut i) true (by decide)

/-- Only a rename brings its source's path along. -/
theorem srcPath_parked_eq_iff :
    (parked .inlineBuffer s₀ i₀ args).srcPath = .unresolved ↔ ¬ args.kind = .rename := by
  refine ⟨fun hpath hrename => ?_, srcPath_parked_of_ne⟩
  rw [parked_of_rename hrename] at hpath
  cases hpath

/-- The return of an operation counts the paths that it resolves. -/
theorem truncatedPaths_exit_parked (hmode : p.resolver.mode = .inlineBuffer)
    (hcall : p.pending.peek? i.caller.threadKey = some (parked .inlineBuffer s₀ i₀ args)) :
    let captured := args.captured (s₀.view 0) i₀.caller
    (p.exit s i retval).2.counters.truncatedPaths =
      p.counters.truncatedPaths +
        (if args.kind = .rename then 0 else
          (cutShort pathBufferSize 0 (ascent (s.view.later 1) captured.srcEntry)).toNat) +
        if args.kind.hasTarget then
          (cutShort pathBufferSize (sourceBytes s₀ i₀ args s).length
            (ascent (s.view.later (1 + maxPathDepth)) captured.targetEntry)).toNat else 0 := by
  intro captured
  have hkind : (readOutcome (s.view 0) retval (parked .inlineBuffer s₀ i₀ args)).event.kind =
      args.kind := (reports_readOutcome _).kind_eq.trans kind_parked
  rw [exit_eq hcall]
  refine (truncatedPaths_finish (p := p.takeOut i) hmode (fits_parked _)).trans ?_
  simp only [hkind, srcPath_readOutcome, srcEntry_readOutcome, targetEntry_readOutcome,
    srcEntry_parked, targetEntry_parked, sourceOf_inline, View.later_later,
    srcPath_parked_eq_iff, ite_not]
  rfl

/-! ### Counts -/

theorem resolved_enter (hsame : p.modes.resolution = p.resolver.mode)
    (hmode : p.resolver.mode = .inlineBuffer) (haccepts : p.Accepts s i args)
    (hrename : args.kind = .rename) :
    let source := (args.captured (s.view 0) i.caller).srcEntry
    p.resolved (.enter s i args) = [⟨s.view.later 2, source,
      (embed (pathBytes pathBufferSize 0 (ascent (s.view.later 2) source))).1.bytes⟩] := by
  have hcall : (p.enter s i args).pending.peek? i.caller.threadKey =
      some (parked .inlineBuffer s i args) := by
    rw [pending_enter hsame haccepts, hmode]
    exact Table.peek?_insert_self _ _ _
  rw [resolved, if_pos ⟨haccepts, hrename⟩, hcall, parked_of_rename hrename]
  rfl

theorem resolved_exit (hmode : p.resolver.mode = .inlineBuffer)
    (hcall : p.pending.peek? i.caller.threadKey = some (parked .inlineBuffer s₀ i₀ args)) :
    let captured := args.captured (s₀.view 0) i₀.caller
    p.resolved (.exit s i retval) =
      (if args.kind = .rename then [] else
        [⟨s.view.later 1, captured.srcEntry, sourceBytes s₀ i₀ args s⟩]) ++
      if args.kind.hasTarget then
        [⟨s.view.later (1 + maxPathDepth), captured.targetEntry, targetBytes s₀ i₀ args s⟩]
      else [] := by
  have hreport : (p.exit s i retval).1 =
      some (report s retval (parked .inlineBuffer s₀ i₀ args) .inlineBuffer) := by
    have hmode' : (p.takeOut i).resolver.mode = .inlineBuffer := hmode
    rw [exit_eq hcall]
    refine congrArg some ((fst_finish ?_).trans ?_)
    · rw [hmode']
      exact fits_parked _
    · rw [hmode']
  have hsplit : (report s retval (parked .inlineBuffer s₀ i₀ args) .inlineBuffer).split =
      (sourceBytes s₀ i₀ args s, targetBytes s₀ i₀ args s) := followedBy_report.split_eq
  simp only [resolved, hcall, hreport, hsplit, srcPath_parked_eq_iff, ite_not, srcEntry_parked,
    targetEntry_parked, kind_parked]

theorem cutTwice_iff (haccepts : p.Accepts s i args) (hrename : args.kind = .rename) :
    let levels := ascent (s.view.later 2) (args.captured (s.view 0) i.caller).srcEntry
    p.CutTwice (.enter s i args) ↔ cutShort pathBufferSize 0 levels = true ∧
      wholePathSize < (pathBytes pathBufferSize 0 levels).length := by
  simp only [CutTwice, haccepts, hrename, true_and, truncated_writePath, filled_writePath_empty]
  rfl

open scoped Classical in
theorem truncatedPaths_enter (hsame : p.modes.resolution = p.resolver.mode)
    (hmode : p.resolver.mode = .inlineBuffer) :
    (p.enter s i args).counters.truncatedPaths =
      p.counters.truncatedPaths + ((p.resolved (.enter s i args)).countP (·.Incomplete) +
        if p.CutTwice (.enter s i args) then 1 else 0) := by
  by_cases h : p.Accepts s i args ∧ args.kind = .rename
  · rw [truncatedPaths_enter_rename hsame hmode h.1 h.2, resolved_enter hsame hmode h.1 h.2,
      Nat.add_assoc, ← countP_embed]
    simp only [cutTwice_iff h.1 h.2]
  · have htwice : ¬ p.CutTwice (.enter s i args) := fun hcut => h ⟨hcut.1, hcut.2.1⟩
    have hnone : p.resolved (.enter s i args) = [] := if_neg h
    rw [(enter_of_not_rename h).2, hnone, if_neg htwice]
    rfl

open scoped Classical in
theorem truncatedPaths_exit (hmode : p.resolver.mode = .inlineBuffer)
    (hcall : p.pending.peek? i.caller.threadKey = some (parked .inlineBuffer s₀ i₀ args)) :
    (p.exit s i retval).2.counters.truncatedPaths =
      p.counters.truncatedPaths + (p.resolved (.exit s i retval)).countP (·.Incomplete) := by
  have hsource : ¬ args.kind = .rename → sourceBytes s₀ i₀ args s = _ := fun h => if_neg h
  have htarget : args.kind.hasTarget = true → targetBytes s₀ i₀ args s = _ := fun h => if_pos h
  rw [truncatedPaths_exit_parked hmode hcall, resolved_exit hmode hcall, List.countP_append,
    Nat.add_assoc]
  congr 2
  · split
    · rfl
    · next hrename => rw [hsource hrename, countP_pathBytes]
  · split
    · next h => rw [htarget h, countP_pathBytes]
    · rfl

theorem inlineBuffer_of_new {config : Config} {processors : Nat}
    (hnew : Probe.new config processors = .ok p) (hinline : config.resolutionMode = .inlineBuffer) :
    p.resolver.mode = .inlineBuffer ∧ p.modes.resolution = p.resolver.mode := by
  have hmode : p.resolver.mode = .inlineBuffer := by
    rw [resolver_of_new hnew, Resolver.mode_new, hinline]
  refine ⟨hmode, ?_⟩
  rw [(fields_of_new hnew).1, hmode]
  exact hinline

open scoped Classical in
/-- **What is counted as truncated.** Where paths follow a record, each step counts every incomplete
path that it resolves once, but for one that is cut twice, which is counted twice: the source of a
rename that is cut short when it is resolved, and again to travel with the call. -/
theorem truncatedPaths_next {config : Config} {processors : Nat}
    (hnew : Probe.new config processors = .ok p) (hinline : config.resolutionMode = .inlineBuffer)
    (steps : List Step) (step : Step) :
    ((p.after steps).next step).statistics.counters.truncatedPaths =
      (p.after steps).statistics.counters.truncatedPaths +
        (((p.after steps).resolved step).countP (·.Incomplete) +
          if (p.after steps).CutTwice step then 1 else 0) := by
  obtain ⟨hmode, hsame⟩ := inlineBuffer_of_new hnew hinline
  have hmode' : (p.after steps).resolver.mode = .inlineBuffer := mode_after.trans hmode
  rw [counters_statistics, counters_statistics]
  cases step with
  | enter s i args =>
    refine truncatedPaths_enter ?_ hmode'
    rw [modes_after, mode_after, hsame]
  | exit s i retval =>
    rw [if_neg (show ¬ (p.after steps).CutTwice (.exit s i retval) from id), Nat.add_zero]
    cases hcall : (p.after steps).pending.peek? i.caller.threadKey with
    | none =>
      have hnone : (p.after steps).resolved (.exit s i retval) = [] := by
        simp only [resolved, hcall]
      rw [hnone]
      exact truncatedPaths_exit_of_none hcall
    | some call =>
      -- the call is that of a start of the run
      rw [← Caller.key_thread] at hcall
      obtain ⟨s₀, i₀, args, houtstanding⟩ := exists_outstanding (peek?_of_new hnew) hcall
      have hparked := peek?_of_outstanding hsame houtstanding
      rw [hmode, Caller.key_thread] at hparked
      exact truncatedPaths_exit hmode' hparked
  | watch inode =>
    rw [if_neg (show ¬ (p.after steps).CutTwice (.watch inode) from id)]
    rfl

/-- Directories in directories, each with a name of sixty letters. -/
def corridor : Accessor where
  name d size :=
    let name : Bytes := if d.id ≤ 1 then [Bytes.slash] else List.replicate 60 110
    some ⟨name.take size, (name.take size).length⟩
  parent d := some (if d.id ≤ 1 then d else ⟨d.id - 1⟩)
  inode d := some d.id
  mount _ := some 1
  device _ := some 1

theorem cutShort_corridor :
    cutShort pathBufferSize 0 (ascent (.still corridor) ⟨80⟩) = true := by decide +kernel

/-- The path of a directory that is too deep is counted once when its open returns. -/
theorem truncatedPaths_next_corridor :
    ∃ p steps, Probe.new { filteringEnabled := false } 1 = .ok p ∧
      ((p.after steps).next
          (.exit ⟨.still corridor, plain.drawn⟩ {} 0)).statistics.counters.truncatedPaths =
        (p.after steps).statistics.counters.truncatedPaths + 1 := by
  obtain ⟨p, hnew⟩ : ∃ p, Probe.new { filteringEnabled := false } 1 = .ok p := ⟨_, rfl⟩
  obtain ⟨hmode, hsame⟩ := inlineBuffer_of_new hnew rfl
  have hopen : p.Outstanding [.enter plain {} (.openFile ⟨80⟩ 1)] (Invocation.caller {}).thread
      plain {} (.openFile ⟨80⟩ 1) := ⟨[], [], rfl, rfl, accepts_openFile hnew _ _ _ _, id⟩
  have hcall := peek?_of_outstanding hsame hopen
  rw [hmode, Caller.key_thread] at hcall
  have hcount := countP_pathBytes (.still corridor) ⟨80⟩ pathBufferSize 0
  rw [cutShort_corridor] at hcount
  refine ⟨p, [.enter plain {} (.openFile ⟨80⟩ 1)], hnew, ?_⟩
  rw [truncatedPaths_next hnew rfl, if_neg (show ¬ CutTwice _ (.exit _ _ _) from id),
    resolved_exit (mode_after.trans hmode) hcall]
  exact congrArg (_ + ·) hcount

/-- The source of a rename that is too deep, and then too long for its call, is counted twice. -/
theorem counted_twice :
    ∃ p path, Probe.new { filteringEnabled := false } 1 = .ok p ∧
      let step := .enter ⟨.still corridor, plain.drawn⟩ {} (.rename ⟨80⟩ ⟨1⟩ ⟨2⟩)
      p.resolved step = [path] ∧ path.Lacks ∧
        (p.next step).statistics.counters.truncatedPaths =
          p.statistics.counters.truncatedPaths + 2 := by
  obtain ⟨p, hnew⟩ : ∃ p, Probe.new { filteringEnabled := false } 1 = .ok p := ⟨_, rfl⟩
  obtain ⟨hmode, hsame⟩ := inlineBuffer_of_new hnew rfl
  have haccepts : p.Accepts ⟨.still corridor, plain.drawn⟩ {} (.rename ⟨80⟩ ⟨1⟩ ⟨2⟩) := by
    obtain ⟨hmodes, -, hwatched⟩ := fields_of_new hnew
    refine ⟨hmodes ▸ by decide, rfl, Or.inl (Or.inl ?_)⟩
    rw [hwatched]
    rfl
  have hlong : wholePathSize <
      (pathBytes pathBufferSize 0 (ascent (.still corridor) ⟨80⟩)).length := by decide +kernel
  refine ⟨p, _, hnew, resolved_enter hsame hmode haccepts rfl, lacks_embed hlong, ?_⟩
  rw [counters_statistics, counters_statistics, next,
    truncatedPaths_enter_rename hsame hmode haccepts rfl]
  show p.counters.truncatedPaths +
      (cutShort pathBufferSize 0 (ascent (.still corridor) ⟨80⟩)).toNat +
      (decide (wholePathSize <
        (pathBytes pathBufferSize 0 (ascent (.still corridor) ⟨80⟩)).length)).toNat = _
  rw [cutShort_corridor, decide_eq_true hlong]
  rfl

end Probe

end FsTrace
