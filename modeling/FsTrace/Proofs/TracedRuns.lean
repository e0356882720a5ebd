import FsTrace.Proofs.TracedCalls

/-!
# Runs on a traced tree

As long as nothing was evicted and no walk ran out of depth, every stored fragment of a live entry
is its own, at any point of a run. So the record of an operation names its entries.

* `TracedTree.Inv`: the stored fragments are up to date, and the operation in flight finds what it
  needs. One lemma for each step shows that it is kept (`Inv.create`, `Inv.forget`, `Inv.effect`,
  `Inv.enter`, `Inv.exit`), and `Inv.next` that every step keeps it;
* `TracedTree.Inv.after`: whole runs;
* `TracedTree.fragmentsEvicted_eq_zero`, `TracedTree.shallow_after`: short runs, in which nothing is
  evicted and every tree is shallow;
* `TracedTree.exit_names_paths`: the record of a return.
-/

namespace FsTrace

namespace Tree

variable {t : Tree} {dirs : Finset Handle} {key : Location} {d : Handle} {log : WalkLog}

/-- A walk runs out of depth neither when none is counted, nor in a shallow tree. -/
theorem Sound.not_cut (h : t.Sound dirs)
    (hcut : (log.walk (.still t.accessor) d key).cut ≤ log.cut ∨ t.Shallow)
    (hkey : key.inode ≠ 0 → (∃ node, t.nodes[d]? = some node) ∧ key.mount = t.mount) :
    (log.store.resolve (.still t.accessor) d key).1 = false := by
  rcases hcut with hcut | hshallow
  · have hzero : (log.store.resolve (.still t.accessor) d key).1.toNat = 0 :=
      Nat.le_zero.1 (Nat.le_of_add_le_add_left hcut)
    exact Bool.toNat_eq_zero.1 hzero
  · by_cases hinode : key.inode = 0
    · exact congrArg Prod.fst (if_pos (by simp [hinode, Location.hasNoInode]))
    · obtain ⟨⟨node, hnode⟩, hmount⟩ := hkey hinode
      exact h.fst_resolve hshallow hnode hmount

end Tree

/-- An event names the entries of a call. What is stored when it is given leads
* from the location of the source along the path that the source had when the operation started;
* from the location of the target of a rename along the path that it has now. -/
structure TracedCall.Names (c : TracedCall) (t : Tree) (table : Table Location Fragment)
    (e : Event) : Prop where
  kind_eq : e.kind = c.args.kind
  srcLocation_eq : e.srcLocation = c.sourceKey t.accessor
  source : c.start.Tells table e.srcLocation c.args.source
  target : ∀ target, c.args.replaced? = some target →
    e.targetLocation = t.locate target ∧ t.Tells table e.targetLocation target

namespace TracedTree

variable {w : TracedTree} {log log' : WalkLog} {c : TracedCall} {move : Move} {moves : List Move}

/-- The entry whose place a renamed file has taken. What is stored of the file is out of date until
the rename returns. -/
def hidden (w : TracedTree) : Set Handle :=
  {d | ∃ c, w.call? = some c ∧ c.done = true ∧ c.args.replaced? = some d}

theorem hidden_of_none (h : w.call? = none) : w.hidden = ∅ := by
  refine Set.eq_empty_of_forall_notMem ?_
  rintro d ⟨c, hcall, -, -⟩
  cases h.symm.trans hcall

theorem hidden_of_some (h : w.call? = some c) :
    w.hidden = {d | c.done = true ∧ c.args.replaced? = some d} := by
  ext d
  constructor
  · rintro ⟨c', hcall, hdone, hreplaced⟩
    obtain rfl := Option.some.inj (h.symm.trans hcall)
    exact ⟨hdone, hreplaced⟩
  · rintro ⟨hdone, hreplaced⟩
    exact ⟨c, h, hdone, hreplaced⟩

/-- The stored fragments are up to date, and the operation in flight finds what it needs. -/
structure Inv (w : TracedTree) (log : WalkLog) : Prop where
  tracing : w.Tracing log
  upToDate : w.tree.UpToDate w.dirs w.hidden w.used log.store none
  current : ∀ c, w.call? = some c → c.Current w.tree w.dirs w.hidden w.used log.store
  pending : ∀ c, w.call? = some c →
    w.probe.pending.peek? c.invocation.caller.threadKey = some c.pending

namespace Inv

/-! ### Changes of the tree -/

/-- An entry is added, perhaps as a directory. -/
theorem create {node : Node} {tree : Tree} {dirs : Finset Handle} (h : w.Inv log)
    (hput : w.tree.Puts ⟨w.tree.nextHandle⟩ node tree) (hsound : tree.Sound dirs)
    (hdirs : dirs = w.dirs ∨ dirs = insert ⟨w.tree.nextHandle⟩ w.dirs)
    (hhands : w.tree.HandsOut tree w.used)
    (hinode : node.inode ≠ 0 → node.inode = w.tree.nextInode) :
    { w with tree, dirs }.Inv log := by
  have hnew : ⟨w.tree.nextHandle⟩ ∉ w.hidden := by
    rintro ⟨c, hcall, -, hreplaced⟩
    have hcurrent := h.current c hcall
    obtain ⟨node, hnode⟩ := hcurrent.meets.exists_replaced hreplaced
    exact lt_irrefl _ ((hcurrent.sound.id_lt _ node hnode).trans_le hcurrent.nextHandle_le)
  have hsubset : w.dirs ⊆ dirs := by
    rcases hdirs with rfl | rfl
    · exact subset_rfl
    · exact Finset.subset_insert _ _
  have hshown : ∀ d ∈ dirs, d ∉ w.hidden := by
    intro d hd
    rcases hdirs with rfl | rfl
    · exact h.upToDate.shown d hd
    · rcases Finset.mem_insert.1 hd with rfl | hd
      · exact hnew
      · exact h.upToDate.shown d hd
  have hchange : w.tree.Changes tree dirs w.hidden w.used :=
    Tree.changes_create h.upToDate.sound hput hsound hshown hhands hinode
  exact ⟨h.tracing.of_settings h.tracing.logs rfl, h.upToDate.change hchange subset_rfl,
    fun c hcall => (h.current c hcall).create h.upToDate hchange hput hsubset, h.pending⟩

/-- An entry is forgotten. -/
theorem forget {d : Handle} (h : w.Inv log) (hzero : w.tree.accessor.inodeOf d = 0)
    (hnot : ∀ c, w.call? = some c → c.done = true → c.args.removed? ≠ some d) :
    { w with tree := w.tree.forget d }.Inv log := by
  have hchange : w.tree.Changes (w.tree.forget d) w.dirs w.hidden w.used :=
    Tree.changes_forget h.upToDate.sound hzero h.upToDate.shown
  exact ⟨h.tracing.of_settings h.tracing.logs rfl, h.upToDate.change hchange subset_rfl,
    fun c hcall => (h.current c hcall).forget h.upToDate hzero (hnot c hcall), h.pending⟩

/-- The operation in flight succeeds. -/
theorem effect (h : w.Inv log) (hcall : w.call? = some c)
    (hsucceeds : c.args.Succeeds w.tree w.dirs)
    (hfresh : c.args.kind = .makeDir → w.tree.nextInode ∉ w.used) :
    { w with
      tree := c.args.effect.apply w.tree
      dirs := c.args.dirsAfter w.dirs
      call? := some { c with done := true } }.Inv log := by
  have hshown : w.hidden ⊆ {d | c.args.replaced? = some d} := by
    rw [hidden_of_some hcall]
    exact fun d hd => hd.2
  have hhidden : { w with
      tree := c.args.effect.apply w.tree
      dirs := c.args.dirsAfter w.dirs
      call? := some { c with done := true } }.hidden = {d | c.args.replaced? = some d} := by
    rw [hidden_of_some rfl]
    exact Set.ext fun d => and_iff_right rfl
  have hcurrent := (h.current c hcall).effect h.upToDate hsucceeds hfresh hshown
  have hup := h.upToDate.change (hsucceeds.changes h.upToDate.sound hfresh) hshown
  refine ⟨h.tracing.of_settings h.tracing.logs rfl, ?_, ?_, ?_⟩
  · rw [hhidden]
    exact hup
  · rintro c' hcall'
    obtain rfl := Option.some.inj hcall'
    rw [hhidden]
    exact hcurrent
  · rintro c' hcall'
    obtain rfl := Option.some.inj hcall'
    exact h.pending c hcall

/-! ### The start and the return of an operation -/

variable {i : Invocation} {drawn : Nat → DrawnKey} {args : Arguments} {retval : Int64}

/-- An operation starts, and its call is kept. -/
theorem started (h : w.Inv log) (htraced : args.isTraced = true)
    (hmeets : args.Meets w.tree w.dirs) (htracing : (w.next (.enter i drawn args)).Tracing log')
    (hup : w.tree.UpToDate w.dirs ∅ (w.next (.enter i drawn args)).used log'.store none)
    (hbrought : args.kind = .rename →
      w.tree.Describes log'.store ⟨(drawn 0).key.toNat, w.tree.mount⟩ args.source)
    (hadmits : args.kind ≠ .rename → w.tree.accessor.inodeOf args.source ≠ 0 →
      w.tree.Admits ∅ (w.next (.enter i drawn args)).used log'.store
        (w.tree.locate args.source) args.source) :
    (w.next (.enter i drawn args)).Inv log' := by
  have hhidden : (w.next (.enter i drawn args)).hidden = ∅ := by
    rw [hidden_of_some rfl]
    exact Set.eq_empty_of_forall_notMem fun d hd => Bool.false_ne_true hd.1
  refine ⟨htracing, hhidden ▸ hup, fun c hcall => ?_, fun c hcall => ?_⟩
  · obtain rfl := Option.some.inj hcall
    rw [hhidden]
    refine .start h.upToDate.sound hmeets (fun hkind => ⟨hbrought hkind, ?_⟩) hadmits
    show (drawn 0).key.toNat ∈ if args.kind = .rename then _ else _
    rw [if_pos hkind]
    exact Finset.mem_insert_self _ _
  · obtain rfl := Option.some.inj hcall
    have hmode := h.tracing.mode_eq
    have hpending : (w.probe.enter (w.surroundings drawn) i args).pending = _ :=
      Probe.pending_enter (h.tracing.resolution.trans hmode.symm)
        (h.tracing.accepts _ i htraced)
    show (w.probe.enter (w.surroundings drawn) i args).pending.peek? _ = _
    rw [hpending, hmode]
    exact Table.peek?_insert_self _ _ _

theorem enter (h : w.Inv log) (hpermits : w.Permits (.enter i drawn args))
    (htracing : (w.next (.enter i drawn args)).Tracing log')
    (hkept : log'.store.table.evictions ≤ log.store.table.evictions)
    (hcut : log'.cut ≤ log.cut ∨ w.tree.Shallow) : (w.next (.enter i drawn args)).Inv log' := by
  obtain ⟨hcall, htraced, hmeets, hfresh⟩ := hpermits
  have hup := h.upToDate
  rw [hidden_of_none hcall] at hup
  by_cases hkind : args.kind = .rename
  · obtain ⟨hnew, hrange⟩ := hfresh hkind
    have hused : (w.next (.enter i drawn args)).used = insert (drawn 0).key.toNat w.used :=
      if_pos hkind
    -- the source is walked from, under the key that was drawn
    have hlogs := h.tracing.logs.enter_rename h.tracing.resolution
      (h.tracing.accepts (w.surroundings drawn) i htraced) hkind
    rw [Arguments.srcEntry_captured] at hlogs
    have hmount : (args.captured ((w.surroundings drawn).view 0) i.caller).event.src.mount = _ :=
      Arguments.mount_captured hup.sound hmeets
    rw [hmount] at hlogs
    obtain rfl := htracing.logs.unique hlogs
    obtain ⟨node, hnode⟩ := hmeets.exists_source
    have hne : (drawn 0).key.toNat ≠ 0 := fun hzero => (drawn 0).ne_zero (UInt32.toNat_inj.1 hzero)
    have hdrawn : w.tree.UpToDate w.dirs ∅ (insert (drawn 0).key.toNat w.used) log.store
        (some ⟨(drawn 0).key.toNat, w.tree.mount⟩) := (hup.draw hne hrange).mono
    obtain ⟨hup', hdescribes, -⟩ := hdrawn.resolve (hup.admits_drawn hne hrange hnew hnode) hkept
      (hup.sound.not_cut hcut fun _ => ⟨⟨node, hnode⟩, rfl⟩)
    exact h.started htraced hmeets htracing (hused ▸ hup') (fun _ => hdescribes)
      fun hrename => absurd hkind hrename
  · have hused : (w.next (.enter i drawn args)).used = w.used := if_neg hkind
    obtain rfl := htracing.logs.unique (h.tracing.logs.enter_of_not fun hboth => hkind hboth.2)
    refine h.started htraced hmeets htracing (hused ▸ hup) (fun hrename => absurd hrename hkind) ?_
    intro _ hlive
    exact hused ▸ hup.admits_own hlive id

theorem peek? (h : w.Inv log) (hcall : w.call? = some c)
    (hthread : i.caller.thread = c.invocation.caller.thread) :
    w.probe.pending.peek? i.caller.threadKey = some c.pending :=
  (congrArg (fun t : Thread => w.probe.pending.peek? t.key) hthread).trans (h.pending c hcall)

/-- The record of a return. -/
theorem fst_exit (h : w.Inv log) (hcall : w.call? = some c)
    (hthread : i.caller.thread = c.invocation.caller.thread) :
    (w.probe.exit (w.surroundings drawn) i retval).1 =
      some ⟨(Probe.readOutcome w.tree.accessor retval c.pending).event, []⟩ := by
  have hpending := h.peek? hcall hthread
  have hmode : (w.probe.takeOut i).resolver.mode = .fragmentStore := h.tracing.mode_eq
  have hfinish : ((w.probe.takeOut i).finish (w.surroundings drawn) i retval c.pending).1 = _ :=
    Probe.fst_finish (hmode ▸ Probe.fits_parked _)
  rw [Probe.exit_eq hpending, Prod.map_fst, hfinish, hmode]
  exact congrArg some Probe.report_fragmentStore

/-- A return drops the call. -/
theorem returned (htracing : (w.next (.exit i drawn retval)).Tracing log')
    (hup : w.tree.UpToDate w.dirs ∅ w.used log'.store none) :
    (w.next (.exit i drawn retval)).Inv log' := by
  have hhidden : (w.next (.exit i drawn retval)).hidden = ∅ := hidden_of_none rfl
  exact ⟨htracing, hhidden ▸ hup, fun _ hnone => (nomatch hnone), fun _ hnone => (nomatch hnone)⟩

theorem logs_exit (h : w.Inv log) (hcall : w.call? = some c)
    (hthread : i.caller.thread = c.invocation.caller.thread) (drawn : Nat → DrawnKey)
    (retval : Int64) :
    (w.next (.exit i drawn retval)).probe.Logs (log.complete ⟨.still w.tree.accessor, drawn⟩
      (Probe.readOutcome w.tree.accessor retval c.pending)) :=
  h.tracing.logs.exit (s := w.surroundings drawn) (h.peek? hcall hthread)

theorem exit_of_ne (h : w.Inv log) (hcall : w.call? = some c) (hkind : c.args.kind ≠ .rename)
    (hthread : i.caller.thread = c.invocation.caller.thread)
    (htracing : (w.next (.exit i drawn retval)).Tracing log')
    (hkept : log'.store.table.evictions ≤ log.store.table.evictions)
    (hcut : log'.cut ≤ log.cut ∨ w.tree.Shallow) :
    (w.next (.exit i drawn retval)).Inv log' ∧
      c.start.Tells log'.store.table (c.sourceKey w.tree.accessor) c.args.source := by
  have hhidden : w.hidden = ∅ := by
    rw [hidden_of_some hcall, Arguments.replaced?_of_ne hkind]
    exact Set.eq_empty_of_forall_notMem fun d hd => Option.some_ne_none d hd.2.symm
  have hcurrent := h.current c hcall
  have hup := h.upToDate
  rw [hhidden] at hcurrent hup
  have hlogs := h.logs_exit hcall hthread drawn retval
  rw [TracedCall.complete_pending_of_ne hcurrent.sound hcurrent.meets hkind] at hlogs
  obtain rfl := htracing.logs.unique hlogs
  have hwhole := hup.sound.not_cut hcut fun hlive =>
    ⟨(hcurrent.admits_source hup hkind hlive).exists_node,
      (hcurrent.admits_source hup hkind hlive).mount_eq⟩
  obtain ⟨hup', hsource⟩ := hcurrent.tells_of_ne hup hkind hkept hwhole
  exact ⟨returned htracing hup', hsource⟩

theorem exit_of_rename {source targetDir target : Handle} (h : w.Inv log)
    (hcall : w.call? = some c) (hargs : c.args = .rename source targetDir target)
    (hthread : i.caller.thread = c.invocation.caller.thread)
    (htracing : (w.next (.exit i drawn retval)).Tracing log')
    (hkept : log'.store.table.evictions ≤ log.store.table.evictions)
    (hcut : log'.cut ≤ log.cut ∨ w.tree.Shallow) :
    (w.next (.exit i drawn retval)).Inv log' ∧ c.start.Tells log'.store.table c.standIn source ∧
      w.tree.Tells log'.store.table (w.tree.locate target) target := by
  have hcurrent := h.current c hcall
  have hup := h.upToDate
  have hhidden : ∀ e ∈ w.hidden, e = target := by
    rw [hidden_of_some hcall, hargs]
    exact fun e he => (Option.some.inj he.2).symm
  have hlogs := h.logs_exit hcall hthread drawn retval
  rw [TracedCall.complete_pending_of_rename hargs,
    hcurrent.targetLocation_eq hup.sound hargs] at hlogs
  obtain rfl := htracing.logs.unique hlogs
  have hcut : ((log.forget (w.tree.locate target)).walk _ target _).cut ≤
    (log.forget (w.tree.locate target)).cut ∨ w.tree.Shallow := hcut
  have hwhole := hup.sound.not_cut hcut fun hlive => by
    obtain ⟨node, hnode, -⟩ := Tree.exists_node hlive
    exact ⟨⟨node, hnode⟩, rfl⟩
  obtain ⟨hup', hnames⟩ := hcurrent.tells_of_rename hargs hup hhidden hkept hwhole
  exact ⟨returned htracing hup', hnames⟩

/-- The return of an operation leaves the paths of its entries stored. -/
theorem exit (h : w.Inv log) (hcall : w.call? = some c)
    (hthread : i.caller.thread = c.invocation.caller.thread)
    (htracing : (w.next (.exit i drawn retval)).Tracing log')
    (hkept : log'.store.table.evictions ≤ log.store.table.evictions)
    (hcut : log'.cut ≤ log.cut ∨ w.tree.Shallow) :
    (w.next (.exit i drawn retval)).Inv log' ∧
      c.start.Tells log'.store.table (c.sourceKey w.tree.accessor) c.args.source ∧
      ∀ target, c.args.replaced? = some target →
        w.tree.Tells log'.store.table (w.tree.locate target) target := by
  by_cases hkind : c.args.kind = .rename
  · obtain ⟨source, targetDir, target, hargs⟩ := Arguments.exists_rename hkind
    obtain ⟨hinv, hsource, htarget⟩ := h.exit_of_rename hcall hargs hthread htracing hkept hcut
    rw [TracedCall.sourceKey, if_pos hkind, hargs]
    refine ⟨hinv, hsource, fun d hd => ?_⟩
    obtain rfl : target = d := Option.some.inj hd
    exact htarget
  · obtain ⟨hinv, hsource⟩ := h.exit_of_ne hcall hkind hthread htracing hkept hcut
    refine ⟨hinv, hsource, fun target hreplaced => ?_⟩
    rw [Arguments.replaced?_of_ne hkind] at hreplaced
    cases hreplaced

/-! ### Runs -/

/-- Every step keeps it, if nothing is evicted by it and no walk runs out of depth. -/
theorem next (h : w.Inv log) (hpermits : w.Permits move) (htracing : (w.next move).Tracing log')
    (hkept : log'.store.table.evictions ≤ log.store.table.evictions)
    (hcut : log'.cut ≤ log.cut ∨ w.tree.Shallow) : (w.next move).Inv log' := by
  -- a step that leaves the probe alone leaves the log alone
  have hsame : (w.next move).probe = w.probe → log' = log := fun hprobe =>
    htracing.logs.unique (hprobe ▸ h.tracing.logs)
  cases move with
  | makeFile dir name =>
    obtain ⟨hdir, hname, -, hfresh⟩ := hpermits
    rw [hsame rfl]
    exact h.create (Tree.puts_makeFile _ dir name) (h.upToDate.sound.makeFile hdir hname)
      (Or.inl rfl) (Or.inr ⟨rfl, hfresh⟩) fun _ => rfl
  | makeDir dir name =>
    obtain ⟨hdir, hname, hnone, hfresh⟩ := hpermits
    rw [hsame rfl]
    have hsound := h.upToDate.sound.makeDir hdir hname hnone
    rw [TracedTree.next]
    rw [Tree.makeDir_of_none hnone] at hsound ⊢
    exact h.create (Tree.puts_makeFile _ dir name) hsound (Or.inr rfl) (Or.inr ⟨rfl, hfresh⟩)
      fun _ => rfl
  | makeNegative dir name =>
    obtain ⟨hdir, hname, -⟩ := hpermits
    rw [hsame rfl]
    exact h.create (Tree.puts_makeNegative _ dir name) (h.upToDate.sound.makeNegative hdir hname)
      (Or.inl rfl) (Or.inl rfl) fun hlive => absurd rfl hlive
  | forget d =>
    rw [hsame rfl]
    exact h.forget hpermits.1 hpermits.2
  | enter i drawn args => exact h.enter hpermits htracing hkept hcut
  | effect =>
    obtain ⟨c, hcall, -, hsucceeds, hfresh⟩ := hpermits
    have hnext : w.next .effect =
        { w with
          tree := c.args.effect.apply w.tree
          dirs := c.args.dirsAfter w.dirs
          call? := some { c with done := true } } := by
      simp only [TracedTree.next, hcall]
    rw [hsame (by rw [hnext]), hnext]
    exact h.effect hcall hsucceeds hfresh
  | exit i drawn retval =>
    obtain ⟨c, hcall, hthread⟩ := hpermits
    exact (h.exit hcall hthread htracing hkept hcut).1

/-- So it holds all along a run in which nothing is evicted, and no walk runs out of depth or every
tree is shallow. -/
theorem after (h : w.Inv log) (hruns : w.Runs moves) (htracing : (w.after moves).Tracing log')
    (hkept : log'.store.table.evictions ≤ log.store.table.evictions)
    (hcut : log'.cut ≤ log.cut ∨ ∀ before, before <+: moves → (w.after before).tree.Shallow) :
    (w.after moves).Inv log' := by
  induction moves generalizing w log with
  | nil =>
    obtain rfl := htracing.logs.unique h.tracing.logs
    exact h
  | cons move moves ih =>
    obtain ⟨hpermits, hruns⟩ := hruns
    obtain ⟨log₁, hfirst, hgrows⟩ := h.tracing.next move
    obtain ⟨log₂, hrest, hgrows'⟩ := hfirst.after moves
    obtain rfl := hrest.logs.unique htracing.logs
    have hnext := h.next hpermits hfirst (hgrows'.evictions_le.trans hkept)
      (hcut.imp hgrows'.cut_le.trans fun hshallow => hshallow [] (List.nil_prefix ..))
    refine ih hnext hruns htracing (hkept.trans hgrows.evictions_le) ?_
    refine hcut.imp (·.trans hgrows.cut_le) fun hshallow before hbefore => ?_
    exact hshallow (move :: before) (List.cons_prefix_cons.2 ⟨rfl, hbefore⟩)

end Inv

/-! ### Runs of a new probe -/

/-- In a short run every tree is shallow. -/
theorem shallow_after (mount : MountId) (device : DeviceId) (p : Probe)
    (hshort : moves.length + 2 < maxPathDepth) :
    ((start mount device p).after moves).tree.Shallow := by
  refine Tree.shallow_of_size ?_
  have hsize := (start mount device p).size_after_le moves
  have hroot : (start mount device p).tree.size = 1 := Tree.size_new mount device
  omega

section NewProbe

variable {config : Config} {processors : Nat} {p : Probe} (mount : MountId) (device : DeviceId)

/-- A probe is new, stores fragments, traces every kind and filters nothing. -/
structure Fresh (config : Config) (processors : Nat) (p : Probe) : Prop where
  new_eq : Probe.new config processors = .ok p
  resolutionMode_eq : config.resolutionMode = .fragmentStore
  filteringEnabled_eq : config.filteringEnabled = false
  mem_enabledKinds : ∀ kind, kind ∈ config.enabledKinds.1

variable (hfresh : Fresh config processors p)

include hfresh

theorem tracing_start :
    (start mount device p).Tracing ⟨.new config.capacities.pathFragments, 0⟩ := by
  obtain ⟨hnew, hmode, hfilter, hkinds⟩ := hfresh
  obtain ⟨hmodes, -, hwatched⟩ := Probe.fields_of_new hnew
  refine ⟨Probe.logs_new hnew hmode, ?_, fun kind => ?_, ?_⟩
  · exact (congrArg Modes.resolution hmodes).trans hmode
  · show p.modes.events.contains kind = true
    rw [hmodes]
    exact (KindSet.contains_ofList _ _).mpr (hkinds kind)
  · exact (congrArg WatchSet.enabled hwatched).trans hfilter

theorem inv_start : (start mount device p).Inv ⟨.new config.capacities.pathFragments, 0⟩ := by
  have hhidden : (start mount device p).hidden = ∅ := hidden_of_none rfl
  exact ⟨tracing_start mount device hfresh, hhidden ▸ Tree.UpToDate.new mount device _,
    fun _ hnone => (nomatch hnone), fun _ hnone => (nomatch hnone)⟩

/-- While there is room for all walks, nothing is evicted. -/
theorem fragmentsEvicted_eq_zero
    (hroom : (maxPathDepth + 1) * (2 * moves.length) ≤ config.capacities.pathFragments) :
    ((start mount device p).after moves).probe.statistics.fragmentsEvicted = 0 := by
  obtain ⟨log, htracing, hgrows⟩ := (tracing_start mount device hfresh).after moves
  rw [htracing.logs.fragmentsEvicted_eq]
  refine (hgrows.room 0 ⟨FragmentStore.unswept_new _, ?_⟩).unswept.evictions_eq
  rw [Nat.zero_add]
  exact (Nat.zero_add _).trans_le (hroom.trans (Nat.le_max_left _ _))

/-- **Right paths while the tree changes.** In a run in which nothing was evicted, and no walk ran
out of depth or every tree was shallow, the return of an operation gives a record that names the
entries of its call. Then whatever is stored of a live entry leads along its path. -/
theorem exit_names_paths {i : Invocation} {drawn : Nat → DrawnKey} {retval : Int64}
    (hruns : (start mount device p).Runs (moves ++ [.exit i drawn retval])) :
    let w := (start mount device p).after moves
    let w' := w.next (.exit i drawn retval)
    w'.probe.statistics.fragmentsEvicted = 0 →
    (w'.probe.statistics.counters.truncatedPaths = 0 ∨
      ∀ before, before <+: moves → ((start mount device p).after before).tree.Shallow) →
    ∃ c e table, w.call? = some c ∧
      (w.probe.exit (w.surroundings drawn) i retval).1 = some e ∧
      w'.probe.resolver.fragments? = some table ∧ c.Names w.tree table e.event ∧
      ∀ d, w.tree.accessor.inodeOf d ≠ 0 → (table.peek? (w.tree.locate d)).isSome →
        w.tree.Tells table (w.tree.locate d) d := by
  intro w w' hkept hwhole
  obtain ⟨hruns, c, hcall, hthread⟩ := runs_concat.1 hruns
  obtain ⟨log, htracing, hgrows⟩ := (tracing_start mount device hfresh).after moves
  obtain ⟨log', htracing', hgrows'⟩ := htracing.next (.exit i drawn retval)
  rw [htracing'.logs.fragmentsEvicted_eq] at hkept
  rw [htracing'.logs.statistics_truncatedPaths] at hwhole
  have hnone : log.store.table.evictions = 0 :=
    Nat.le_zero.1 (hgrows'.evictions_le.trans_eq hkept)
  have hinv : w.Inv log := (inv_start mount device hfresh).after hruns htracing hnone.le
    (hwhole.imp_left fun hzero => hgrows'.cut_le.trans_eq hzero)
  obtain ⟨hinv', hsource, htarget⟩ := hinv.exit hcall hthread htracing'
    (hkept.trans_le (Nat.zero_le _))
    (hwhole.imp (fun hzero => hzero.trans_le (Nat.zero_le _)) fun hshallow =>
      hshallow moves List.prefix_rfl)
  have hcurrent := hinv.current c hcall
  have hlocation : (Probe.readOutcome w.tree.accessor retval c.pending).event.srcLocation = _ :=
    TracedCall.srcLocation_readOutcome hcurrent.sound hcurrent.meets
  have hhidden : w'.hidden = ∅ := hidden_of_none rfl
  have hup := hinv'.upToDate
  rw [hhidden] at hup
  refine ⟨c, _, log'.store.table, hcall, hinv.fst_exit hcall hthread, ?_,
    ⟨TracedCall.kind_readOutcome_pending, hlocation, hlocation ▸ hsource, ?_⟩,
    fun d hlive hstored => hup.tells_stored hlive hstored⟩
  · rw [htracing'.logs.resolver_eq]
    rfl
  · intro target hreplaced
    obtain ⟨source, targetDir, hargs⟩ := Arguments.exists_of_replaced? hreplaced
    have hlocation : (Probe.readOutcome _ retval c.pending).event.targetLocation = _ :=
      hcurrent.targetLocation_eq hinv.upToDate.sound hargs
    exact ⟨hlocation, hlocation ▸ htarget target hreplaced⟩

end NewProbe

/-! ### A file that is renamed -/

/-- A key that is drawn whenever one is needed. -/
def sevens : Nat → DrawnKey := fun _ => ⟨7, by decide⟩

/-- A tree with the file `f`, and with `g`, which is about to take its place. -/
def fileAndFree : Tree :=
  (((Tree.new 1 1).makeFile Tree.root [102]).2.makeNegative Tree.root [103]).2

/-- The file `f` is made, and renamed to `g`. -/
def renamed : List Move :=
  [.makeFile Tree.root [102], .makeNegative Tree.root [103],
    .enter {} sevens (.rename ⟨2⟩ Tree.root ⟨3⟩), .effect]

theorem nodes_file : fileAndFree.nodes[(⟨2⟩ : Handle)]? = some ⟨[102], Tree.root, 3⟩ := by
  rw [fileAndFree, (Tree.puts_makeNegative _ Tree.root [103]).nodes_eq, if_neg (by decide),
    (Tree.puts_makeFile _ Tree.root [102]).nodes_eq]
  rfl

theorem nodes_free : fileAndFree.nodes[(⟨3⟩ : Handle)]? = some ⟨[103], Tree.root, 0⟩ := by
  rw [fileAndFree, (Tree.puts_makeNegative _ Tree.root [103]).nodes_eq]
  rfl

theorem nodes_renamed (p : Probe) :
    ((start 1 1 p).after renamed).tree.nodes[(⟨3⟩ : Handle)]? = some ⟨[103], Tree.root, 3⟩ := by
  have hlink := Tree.puts_link nodes_file nodes_free
  have hsource : (fileAndFree.link ⟨2⟩ ⟨3⟩).2.nodes[(⟨2⟩ : Handle)]? = _ :=
    (hlink.nodes_eq ⟨2⟩).trans ((if_neg (by decide)).trans nodes_file)
  exact ((Tree.puts_unlink hsource).nodes_eq ⟨3⟩).trans
    ((if_neg (by decide)).trans ((hlink.nodes_eq ⟨3⟩).trans (if_pos rfl)))

theorem runs_renamed (p : Probe) : (start 1 1 p).Runs (renamed ++ [.exit {} sevens 0]) := by
  have hgood : ∀ name ∈ [[102], [103]], Tree.GoodName name := by
    intro name hname
    fin_cases hname <;> exact ⟨by decide, by decide, by decide, by decide⟩
  have hroot : Tree.root ∈ (start 1 1 p).dirs := Finset.mem_singleton_self _
  have hfiles : ⟨2⟩ ∉ ({Tree.root} : Finset Handle) ∧ ⟨3⟩ ∉ ({Tree.root} : Finset Handle) := by
    decide
  have hfree : ((Tree.new 1 1).makeFile Tree.root [102]).2.lookup? Tree.root [103] = none := by
    show ((∅ : Std.HashMap (Handle × Bytes) Handle).insert (Tree.root, [102]) ⟨2⟩)[_]? = none
    rw [Std.HashMap.getElem?_insert, if_neg (by simp)]
    exact Std.HashMap.getElem?_empty
  have hlive : fileAndFree.accessor.inodeOf ⟨2⟩ ≠ 0 := by
    rw [Tree.inodeOf_of nodes_file]
    decide
  refine ⟨⟨hroot, hgood _ (by simp), Std.HashMap.getElem?_empty, Finset.notMem_empty _⟩,
    ⟨hroot, hgood _ (by simp), hfree⟩,
    ⟨rfl, rfl, ⟨hroot, ⟨_, nodes_file⟩, ⟨_, nodes_free⟩⟩,
      fun _ => ⟨Finset.notMem_empty _, ?_⟩⟩,
    ⟨_, rfl, rfl, ⟨hlive, hfiles.1, ⟨_, nodes_free⟩, hfiles.2, by decide⟩, ?_⟩, ⟨_, rfl, rfl⟩,
    trivial⟩
  · rintro ⟨-, hlt : 7 < 4⟩
    exact absurd hlt (by decide)
  · rintro ⟨⟩

/-- The record of a rename leads along both paths, the old one and the new one. -/
theorem exit_names_paths_renamed :
    ∃ p e table,
      Probe.new { resolutionMode := .fragmentStore, filteringEnabled := false } 1 = .ok p ∧
      (((start 1 1 p).after renamed).probe.exit
        (((start 1 1 p).after renamed).surroundings sevens) {} 0).1 = some e ∧
      (((start 1 1 p).after renamed).next (.exit {} sevens 0)).probe.resolver.fragments? =
        some table ∧
      Follows table e.event.srcLocation [[102], [Bytes.slash]] ∧
      Follows table e.event.targetLocation [[103], [Bytes.slash]] := by
  obtain ⟨p, hnew⟩ : ∃ p, Probe.new
    { resolutionMode := .fragmentStore, filteringEnabled := false } 1 = .ok p := ⟨_, rfl⟩
  have hfresh : Fresh { resolutionMode := .fragmentStore, filteringEnabled := false } 1 p :=
    ⟨hnew, rfl, rfl, fun kind => by cases kind <;> decide⟩
  have hkept : (((start 1 1 p).after renamed).next
      (.exit {} sevens 0)).probe.statistics.fragmentsEvicted = 0 := by
    rw [← after_concat]
    exact fragmentsEvicted_eq_zero 1 1 hfresh (by decide)
  have hshallow : ∀ before, before <+: renamed → ((start 1 1 p).after before).tree.Shallow := by
    intro before hbefore
    exact shallow_after 1 1 p ((Nat.add_le_add_right hbefore.length_le 2).trans_lt (by decide))
  obtain ⟨c, e, table, hcall, he, htable, hnames, -⟩ :=
    exit_names_paths 1 1 hfresh (runs_renamed p) hkept (Or.inr hshallow)
  obtain rfl : c = ⟨{}, sevens, .rename ⟨2⟩ Tree.root ⟨3⟩, fileAndFree, {Tree.root}, true⟩ :=
    Option.some.inj (hcall.symm.trans rfl)
  have hseven : (7 : Nat) ≠ 0 := by decide
  refine ⟨p, e, table, hnew, he, htable, ?_, ?_⟩
  · refine hnames.source.follows_in_root nodes_file rfl (by decide) (by decide) ?_
    rw [hnames.srcLocation_eq]
    exact hseven
  · obtain ⟨hlocation, htells⟩ := hnames.target ⟨3⟩ rfl
    refine htells.follows_in_root (nodes_renamed p) rfl (by decide) (by decide) ?_
    rw [hlocation, Tree.locate, Tree.inodeOf_of (nodes_renamed p)]
    exact Nat.succ_ne_zero 2

end TracedTree

end FsTrace
