import FsTrace.Proofs.Emissions
import FsTrace.Proofs.PathOutcome
import Mathlib.Data.List.DropRight

/-!
# Paths that are brought along

A rename moves its source away, so that its path is resolved when it starts and brought along. The
record has it as it was then, whatever happens until the rename returns.

* `fitting`: the names at the front of a path that fit into so many bytes;
* `LongestFront`: the most of a path that whole segments can keep of it, and `longestFront_embed`:
  this is what travels with a call;
* `Probe.stored`, `displaced`: what one step stores in the table of whole paths, and what has to make
  room for it. Until then a stored path stays, `wholePath?_after_of_kept`;
* `Probe.record_of_rename`: the record of a rename.
-/

namespace FsTrace

/-! ### Whole segments -/

/-- The names at the front that fit into so many bytes, each with its NUL. -/
def fitting (most : Nat) : List Bytes → List Bytes
  | [] => []
  | name :: names =>
    let length := (PathBuffer.segment name).length
    if length ≤ most then name :: fitting (most - length) names else []

/-- The longest front of a path that holds only whole segments and has at most so many bytes. -/
structure LongestFront (most : Nat) (path front : Bytes) : Prop where
  segments_eq : path.segments.flatMap PathBuffer.segment = path
  exists_names : ∃ names, names <+: path.segments ∧ names.flatMap PathBuffer.segment = front
  length_le : front.length ≤ most
  longest : ∀ names, names <+: path.segments →
    (names.flatMap PathBuffer.segment).length ≤ most → names.flatMap PathBuffer.segment <+: front

variable {most : Nat} {name bs : Bytes} {names front : List Bytes}

theorem rdropWhile_segment_append (name bs : Bytes) :
    (PathBuffer.segment name ++ bs).rdropWhile (· != 0) =
      PathBuffer.segment name ++ bs.rdropWhile (· != 0) := by
  induction bs using List.reverseRecOn with
  | nil =>
    rw [List.append_nil, List.rdropWhile_nil, List.append_nil, PathBuffer.segment,
      List.rdropWhile_concat_neg _ _ _ (by decide)]
  | append_singleton bs b ih =>
    rw [← List.append_assoc, List.rdropWhile_concat, List.rdropWhile_concat, ih]
    split
    · rfl
    · exact List.append_assoc _ _ _

/-- Of the front of some names, up to its last NUL, those are left that fit. -/
theorem rdropWhile_take_flatMap (h : ∀ name ∈ names, 0 ∉ name) (most : Nat) :
    ((names.flatMap PathBuffer.segment).take most).rdropWhile (· != 0) =
      (fitting most names).flatMap PathBuffer.segment := by
  induction names generalizing most with
  | nil =>
    rw [List.flatMap_nil, List.take_nil]
    rfl
  | cons name names ih =>
    obtain ⟨hname, hnames⟩ := List.forall_mem_cons.1 h
    rw [List.flatMap_cons, fitting]
    split
    · next hfits =>
      rw [List.take_append, List.take_of_length_le hfits, rdropWhile_segment_append, ih hnames,
        List.flatMap_cons]
    · next hcut =>
      -- what is left of the first name has no NUL
      rw [List.take_append_of_le_length (Nat.le_of_not_le hcut), List.flatMap_nil,
        List.rdropWhile_eq_nil_iff]
      intro b hb
      rw [PathBuffer.segment, List.take_append_of_le_length] at hb
      · have hmem := List.mem_of_mem_take (List.mem_of_mem_take hb)
        exact bne_iff_ne.2 fun heq => hname (heq ▸ hmem)
      · simp only [PathBuffer.segment, List.length_append, List.length_singleton] at hcut
        omega

theorem fitting_isPrefix (most : Nat) (names : List Bytes) : fitting most names <+: names := by
  induction names generalizing most with
  | nil => exact List.prefix_rfl
  | cons name names ih =>
    rw [fitting]
    split
    · exact List.cons_prefix_cons.2 ⟨rfl, ih _⟩
    · exact List.nil_prefix

theorem length_fitting_le (most : Nat) (names : List Bytes) :
    ((fitting most names).flatMap PathBuffer.segment).length ≤ most := by
  induction names generalizing most with
  | nil => exact Nat.zero_le _
  | cons name names ih =>
    rw [fitting]
    split
    · have habove := ih (most - (PathBuffer.segment name).length)
      rw [List.flatMap_cons, List.length_append]
      omega
    · exact Nat.zero_le _

/-- Nothing that fits is longer. -/
theorem isPrefix_fitting (h : front <+: names)
    (hfits : (front.flatMap PathBuffer.segment).length ≤ most) : front <+: fitting most names := by
  induction names generalizing front most with
  | nil => exact h
  | cons name names ih =>
    cases front with
    | nil => exact List.nil_prefix
    | cons first front =>
      obtain ⟨rfl, hfront⟩ := List.cons_prefix_cons.1 h
      rw [List.flatMap_cons, List.length_append] at hfits
      rw [fitting]
      rw [if_pos (by omega)]
      exact List.cons_prefix_cons.2 ⟨rfl, ih hfront (by omega)⟩

/-- If not all names fit, less than the longest segment is left over. -/
theorem lt_length_fitting (h : most < (names.flatMap PathBuffer.segment).length) :
    most < ((fitting most names).flatMap PathBuffer.segment).length + nameSize := by
  induction names generalizing most with
  | nil => cases h
  | cons name names ih =>
    have hlength := PathBuffer.length_segment_le name
    rw [List.flatMap_cons, List.length_append] at h
    rw [fitting]
    split
    · next hfits =>
      have habove : most - (PathBuffer.segment name).length <
          ((fitting (most - (PathBuffer.segment name).length) names).flatMap
            PathBuffer.segment).length + nameSize := ih (by omega)
      rw [List.flatMap_cons, List.length_append]
      omega
    · simp only [List.flatMap_nil, List.length_nil]
      omega

theorem bytes_embed_of_le (h : bs.length ≤ wholePathSize) : (embed bs).1.bytes = bs := by
  rw [embed, if_pos h]
  exact List.take_of_length_le h

/-- What travels with a call are the names that fit. -/
theorem embed_flatMap_segment (h : ∀ name ∈ names, 0 ∉ name) :
    (embed (names.flatMap PathBuffer.segment)).1.bytes =
      (fitting wholePathSize names).flatMap PathBuffer.segment := by
  by_cases hfits : (names.flatMap PathBuffer.segment).length ≤ wholePathSize
  · have hall := isPrefix_fitting List.prefix_rfl hfits
    rw [(fitting_isPrefix _ names).eq_of_length_le hall.length_le, bytes_embed_of_le hfits]
  · have hkept := rdropWhile_take_flatMap h wholePathSize
    rw [List.rdropWhile] at hkept
    rw [embed, if_neg hfits]
    simp only [hkept]
    exact List.take_of_length_le (length_fitting_le _ _)

/-- What travels with a call is as much of the path as whole segments can keep of it. -/
theorem longestFront_embed {limit : Nat} {levels : List Level}
    (h : ∀ level ∈ levels, 0 ∉ level.name ∧ level.name.length < nameSize) :
    LongestFront wholePathSize (pathBytes limit 0 levels) (embed (pathBytes limit 0 levels)).1.bytes
      := by
  have hsegments := segments_pathBytes h limit 0
  have hnul : ∀ name ∈ pathNames limit 0 levels, 0 ∉ name := by
    intro name hname
    obtain ⟨-, level, hlevel, rfl⟩ := mem_pathNames hname
    exact (h level hlevel).1
  have hkept := embed_flatMap_segment hnul
  rw [← pathBytes_eq] at hkept
  refine ⟨by rw [hsegments, ← pathBytes_eq], ?_, ?_, fun names hnames hfits => ?_⟩
  · rw [hsegments, hkept]
    exact ⟨_, fitting_isPrefix _ _, rfl⟩
  · rw [hkept]
    exact length_fitting_le _ _
  · rw [hsegments] at hnames
    rw [hkept]
    exact (isPrefix_fitting hnames hfits).flatMap _

/-- Of a path that is too long, less than the longest segment is left over. -/
theorem lt_length_embed {limit : Nat} {levels : List Level} (h : ∀ level ∈ levels, 0 ∉ level.name)
    (hlong : wholePathSize < (pathBytes limit 0 levels).length) :
    wholePathSize < (embed (pathBytes limit 0 levels)).1.bytes.length + nameSize := by
  have hnul : ∀ name ∈ pathNames limit 0 levels, 0 ∉ name := by
    intro name hname
    obtain ⟨-, level, hlevel, rfl⟩ := mem_pathNames hname
    exact h level hlevel
  rw [pathBytes_eq] at hlong ⊢
  rw [embed_flatMap_segment hnul]
  exact lt_length_fitting hlong

theorem length_name_lt_of_mem_climb {view : View} {d : Handle} {buffer : NameBuffer} {depth : Nat}
    {level : Level} (h : level ∈ climb view d buffer depth) : level.name.length < nameSize := by
  have hread : ∀ (a : Accessor) (d : Handle) (buffer : NameBuffer),
      (readName a d buffer).1.length < nameSize := by
    intro a d buffer
    unfold readName
    split
    · rw [List.length_take, ByteField.length_bytes]
      exact (Nat.min_le_right _ _).trans_lt (by decide)
    · exact Nat.zero_lt_succ _
  induction depth generalizing view d buffer with
  | zero => cases h
  | succ depth ih =>
    rw [climb] at h
    simp only at h
    split at h
    · rw [List.mem_singleton.1 h]
      exact hread _ _ _
    · rcases List.mem_cons.1 h with rfl | h
      · exact hread _ _ _
      · exact ih h

/-! ### Paths that are stored whole -/

/-- The keys that have to make room when some paths are stored whole. -/
def displaced (table : WholePaths) : List (UInt32 × WholePath) → List UInt32
  | [] => []
  | path :: stored =>
    let (evicted, table) := table.insert path.1 path.2
    evicted.toList ++ displaced table stored

namespace Probe

/-- The paths that one step stores whole, with the keys that it draws for them. -/
def stored (p : Probe) : Step → List (UInt32 × WholePath)
  | .enter s i args =>
    if p.Accepts s i args ∧ args.kind = .rename then
      [((s.drawn 0).key, wholePath (s.view.later 2) (args.captured (s.view 0) i.caller).srcEntry)]
    else []
  | .exit s i _ =>
    match p.pending.peek? i.caller.threadKey with
    | none => []
    | some call =>
      (if call.srcPath = .unresolved then
          [((s.drawn 0).key, wholePath (s.view.later 1) call.srcEntry)] else []) ++
        if call.event.kind.hasTarget then
          [((s.drawn 1).key, wholePath (s.view.later (1 + maxPathDepth)) call.targetEntry)]
        else []
  | .watch _ => []

/-- The path that is stored whole under a key. -/
def wholePath? (p : Probe) (key : UInt32) : Option WholePath :=
  p.resolver.wholePaths?.bind (Table.peek? · key)

/-- A step draws a key again, or its path has to make room for another. -/
def Replaces (key : UInt32) (p : Probe) (step : Step) : Prop :=
  key ∈ (p.stored step).map Prod.fst ∨
    ∃ table, p.resolver.wholePaths? = some table ∧ key ∈ displaced table (p.stored step)

variable {p : Probe} {s s₀ : Surroundings} {i i₀ : Invocation} {args : Arguments} {retval : Int64}
  {step : Step} {steps : List Step} {key : UInt32} {table : WholePaths}
  {stored : List (UInt32 × WholePath)}

theorem peek?_insertAll (hdrawn : key ∉ stored.map Prod.fst) (hkept : key ∉ displaced table stored) :
    (insertAll table stored).peek? key = table.peek? key := by
  induction stored generalizing table with
  | nil => rfl
  | cons path stored ih =>
    rw [displaced, List.mem_append, not_or, Option.mem_toList] at hkept
    rw [List.map_cons, List.mem_cons, not_or] at hdrawn
    refine (ih hdrawn.2 hkept.2).trans ?_
    exact Table.peek?_insert_of_ne (Ne.symm hdrawn.1) hkept.1

/-- What `stored` tells is all that a step stores. -/
theorem stores_stored (hresolver : p.resolver = .singleFragment table) (step : Step) :
    p.Stores step (p.stored step) := by
  cases step with
  | enter s i args =>
    rw [Probe.stored]
    split
    · next h => exact stores_enter hresolver h.1 h.2
    · next h => exact ⟨table, hresolver, (enter_of_not_rename h).1.trans hresolver⟩
  | exit s i retval =>
    cases hcall : p.pending.peek? i.caller.threadKey with
    | none =>
      simp only [Probe.stored, hcall]
      refine ⟨table, hresolver, ?_⟩
      rw [next, exit_eq_of_none hcall]
      exact hresolver
    | some call =>
      simp only [Probe.stored, hcall]
      exact stores_exit s retval hresolver hcall
  | watch inode => exact ⟨table, hresolver, hresolver⟩

theorem wholePath?_next_of_kept (hmode : p.resolver.mode = .singleFragment)
    (h : ¬ Replaces key p step) : (p.next step).wholePath? key = p.wholePath? key := by
  obtain ⟨table, hresolver⟩ := exists_wholePaths hmode
  obtain ⟨table', hresolver', hnext⟩ := stores_stored hresolver step
  obtain rfl := Resolver.singleFragment.inj (hresolver.symm.trans hresolver')
  obtain ⟨hdrawn, hkept⟩ := not_or.1 h
  rw [wholePath?, wholePath?, hnext, hresolver]
  exact peek?_insertAll hdrawn fun hmem => hkept ⟨table, congrArg _ hresolver, hmem⟩

/-- A stored path stays till its key is drawn again or it has to make room. -/
theorem wholePath?_after_of_kept (hmode : p.resolver.mode = .singleFragment)
    (h : ¬ Sometime (Replaces key) p steps) : (p.after steps).wholePath? key = p.wholePath? key := by
  induction steps generalizing p with
  | nil => rfl
  | cons step steps ih =>
    obtain ⟨hstep, hsteps⟩ := not_or.1 h
    have hmode' : (p.next step).resolver.mode = .singleFragment :=
      (congrArg (·.2.1) settings_next).trans hmode
    rw [after_cons, ih hmode' hsteps, wholePath?_next_of_kept hmode hstep]

/-- The start of a rename stores the path of its source. -/
theorem wholePath?_enter_of_rename (hmode : p.resolver.mode = .singleFragment)
    (haccepts : p.Accepts s i args) (hrename : args.kind = .rename) :
    (p.enter s i args).wholePath? (s.drawn 0).key =
      some (wholePath (s.view.later 2) (args.captured (s.view 0) i.caller).srcEntry) := by
  obtain ⟨table, htable⟩ := exists_wholePaths hmode
  obtain ⟨table', -, hstored⟩ := stores_enter htable haccepts hrename
  have henter : (p.enter s i args).resolver = .singleFragment (insertAll table' [_]) := hstored
  rw [wholePath?, henter]
  exact Table.peek?_insert_self _ _ _

/-! ### Renames -/

theorem paths_of_followedBy {e : Emission} {source target : Bytes} (h : e.FollowedBy source target) :
    e.paths = source ++ target := by
  obtain ⟨hsource, htarget⟩ := Prod.mk.inj h.split_eq
  have hrest : (e.paths.drop e.event.src.pathLength).length ≤ e.event.target.pathLength := by
    rw [List.length_drop, h.length_paths, Nat.add_sub_cancel_left]
  rw [List.take_of_length_le hrest] at htarget
  rw [← hsource, ← htarget, List.take_append_drop]

theorem filled_writePath_empty (view : View) (d : Handle) (limit : Nat) :
    (writePath view .empty d limit).paths.filled = pathBytes limit 0 (ascent view d) :=
  filled_writePath view .empty d limit

/-- **The record of a rename.** It has the path of the source as it was resolved when the rename
started, whatever other threads did since and however the tree changed.
* Where paths follow a record, these are the bytes as they were resolved if as many can travel with a
  call, and else as much of them as whole segments can keep; at most the longest segment is missing
  then. The target's path follows as it is resolved behind them when the rename returns.
* Where paths are stored whole, the source's key leads to the path that was resolved at the start,
  till that key is drawn again or has to make room. -/
theorem record_of_rename {config : Config} {processors : Nat} {before between : List Step}
    {source targetDir target : Handle} (hnew : Probe.new config processors = .ok p)
    (haccepts : (p.after before).Accepts s₀ i₀ (.rename source targetDir target))
    (hthread : i₀.caller.thread = i.caller.thread)
    (hwaits : ¬ Sometime (Ends i.caller.thread)
      (p.after (before ++ [.enter s₀ i₀ (.rename source targetDir target)])) between)
    (hnul : ∀ level ∈ ascent (s₀.view.later 2) source, 0 ∉ level.name)
    (s : Surroundings) (retval : Int64) :
    ∃ e, ((p.after (before ++ .enter s₀ i₀ (.rename source targetDir target) :: between)).exit
        s i retval).1 = some e ∧ e.event.kind = .rename ∧
      (config.resolutionMode = .inlineBuffer →
        let resolved := (writePath (s₀.view.later 2) .empty source pathBufferSize).paths.filled
        (resolved.length ≤ wholePathSize → e.split.1 = resolved) ∧
        (wholePathSize < resolved.length →
          LongestFront wholePathSize resolved e.split.1 ∧ 4097 ≤ e.split.1.length) ∧
        e.paths = e.split.1 ++ e.split.2 ∧
        ∀ paths, paths.filled = e.split.1 →
          (writePath (s.view.later (1 + maxPathDepth)) paths target pathBufferSize).paths.filled =
            e.paths) ∧
      (config.resolutionMode = .singleFragment → ∀ since,
        ¬ Sometime (Replaces e.event.src.pathKey)
          (p.after (before ++ [.enter s₀ i₀ (.rename source targetDir target)])) since →
        (p.after (before ++ .enter s₀ i₀ (.rename source targetDir target) :: since)).wholePath?
          e.event.src.pathKey =
            some ⟨(writePath (s₀.view.later 2) .empty source wholePathSize).paths.filled⟩) := by
  have hmode : p.resolver.mode = config.resolutionMode := by
    rw [resolver_of_new hnew, Resolver.mode_new]
  have hsame : p.modes.resolution = p.resolver.mode := by
    rw [(fields_of_new hnew).1, hmode]
    rfl
  have houtstanding : p.Outstanding
      (before ++ .enter s₀ i₀ (.rename source targetDir target) :: between) i.caller.thread s₀ i₀
      (.rename source targetDir target) := ⟨before, between, rfl, hthread, haccepts, hwaits⟩
  have hgood : ∀ level ∈ ascent (s₀.view.later 2) source,
      0 ∉ level.name ∧ level.name.length < nameSize :=
    fun level hlevel => ⟨hnul level hlevel, length_name_lt_of_mem_climb hlevel⟩
  refine ⟨_, exit_of_outstanding s retval hsame houtstanding, kind_report.trans kind_parked, ?_, ?_⟩
  · intro hinline resolved
    have hresolved : resolved = pathBytes pathBufferSize 0 (ascent (s₀.view.later 2) source) :=
      filled_writePath_empty _ _ _
    rw [hmode, hinline]
    have hfollowed : (report s retval (parked .inlineBuffer s₀ i₀ (.rename source targetDir target))
        .inlineBuffer).FollowedBy (embed resolved).1.bytes
          (pathBytes pathBufferSize (embed resolved).1.bytes.length
            (ascent (s.view.later (1 + maxPathDepth)) target)) := by
      rw [hresolved]
      exact followedBy_report
    have hpaths := paths_of_followedBy hfollowed
    rw [hfollowed.split_eq]
    refine ⟨fun hshort => ?_, fun hlong => ⟨?_, ?_⟩, hpaths, fun paths hfilled => ?_⟩
    · exact bytes_embed_of_le hshort
    · rw [hresolved]
      exact longestFront_embed hgood
    · rw [hresolved] at hlong ⊢
      have hleft := lt_length_embed hnul hlong
      simp only [wholePathSize, nameSize] at hleft
      exact Nat.le_of_lt_succ (Nat.lt_of_add_lt_add_right (n := 254) hleft)
    · rw [filled_writePath, hfilled, hpaths]
  · intro hsingle since hkept
    rw [hmode, hsingle] at hkept ⊢
    have hkey : (report s retval (parked .singleFragment s₀ i₀ (.rename source targetDir target))
        .singleFragment).event.src.pathKey = (s₀.drawn 0).key :=
      (refersTo_report s₀ i₀ _ s retval).2.1.1
    rw [hkey] at hkept ⊢
    have hmode' : ∀ steps, (p.after steps).resolver.mode = .singleFragment := fun steps => by
      rw [mode_after, hmode, hsingle]
    have hstored := wholePath?_enter_of_rename (hmode' before) haccepts rfl
    have hsplit : before ++ .enter s₀ i₀ (.rename source targetDir target) :: since =
        before ++ [.enter s₀ i₀ (.rename source targetDir target)] ++ since := by
      rw [List.append_assoc, List.singleton_append]
    calc (p.after (before ++ .enter s₀ i₀ (.rename source targetDir target) :: since)).wholePath?
          (s₀.drawn 0).key
        = (p.after (before ++ [.enter s₀ i₀ (.rename source targetDir target)])).wholePath?
            (s₀.drawn 0).key := by
          rw [hsplit, after_append, wholePath?_after_of_kept (hmode' _) hkept]
      _ = some (wholePath (s₀.view.later 2) source) := by
          rw [after_concat]
          exact hstored
      _ = some ⟨(writePath (s₀.view.later 2) .empty source wholePathSize).paths.filled⟩ := by
          rw [filled_writePath_empty, ← bytes_wholePath]

/-- The source's path is in the record of a rename after which nothing can be read. -/
theorem record_of_rename_carousel :
    ∃ p e, Probe.new { filteringEnabled := false } 1 = .ok p ∧
      ((p.after [.enter ⟨.still carousel, plain.drawn⟩ {} (.rename ⟨0⟩ ⟨1⟩ ⟨2⟩), .watch 7]).exit
        plain {} 0).1 = some e ∧ e.split.1 = (List.replicate 75 [110, 0]).flatten := by
  obtain ⟨p, hnew⟩ : ∃ p, Probe.new { filteringEnabled := false } 1 = .ok p := ⟨_, rfl⟩
  have haccepts : p.Accepts ⟨.still carousel, plain.drawn⟩ {} (.rename ⟨0⟩ ⟨1⟩ ⟨2⟩) := by
    obtain ⟨hmodes, -, hwatched⟩ := fields_of_new hnew
    refine ⟨hmodes ▸ by decide, rfl, Or.inl (Or.inl ?_)⟩
    rw [hwatched]
    rfl
  have hwaits : ¬ Sometime (Ends (Invocation.caller {}).thread)
      (p.after ([] ++ [.enter ⟨.still carousel, plain.drawn⟩ {} (.rename ⟨0⟩ ⟨1⟩ ⟨2⟩)]))
      [.watch 7] := by simp [Sometime, Ends]
  obtain ⟨e, he, -, hinline, -⟩ := @record_of_rename p _ _ _ _ _ [] _ _ _ _ hnew haccepts rfl hwaits
    (by decide +kernel) plain 0
  obtain ⟨hshort, -⟩ := hinline rfl
  have hresolved : (writePath (View.later (.still carousel) 2) .empty ⟨0⟩
      pathBufferSize).paths.filled = (List.replicate 75 [110, 0]).flatten := by decide +kernel
  exact ⟨p, e, hnew, he, (hshort (by rw [hresolved]; decide +kernel)).trans hresolved⟩

end Probe

end FsTrace
