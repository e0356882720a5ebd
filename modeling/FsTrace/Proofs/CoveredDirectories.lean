import FsTrace.Proofs.Correlation
import FsTrace.Proofs.TracedCalls
import FsTrace.Proofs.WatchedInodes

/-!
# Directories below a watched one

Whether an entry is in scope is decided by its own inode and that of the directory around it, and by
no other. A tree that grows below a watched directory is in scope nevertheless, since each directory
is watched as soon as it is made.

* `Covered`: a directory that was watched, or was made in a covered one;
* `Probe.Undisturbed`: a run of starts and returns in turn in which nothing has to make room;
* `Probe.holds_of_covered`: after it, every covered directory is watched;
* `Probe.accepts_of_covered`: so every operation on a covered directory, or on an entry in it, is
  accepted.
-/

namespace FsTrace

/-- A directory is covered, which is told by its inode: it was watched on request, or it was made,
in a directory that was covered when the operation started. -/
inductive Covered : List Step → Inode → Prop
  | watched (before : List Step) (inode : Inode) (rest : List Step) (hinode : inode ≠ 0) :
      Covered (before ++ .watch inode :: rest) inode
  /-- The entry is found in the covered directory at the start, and has an inode at the return. -/
  | made (steps before between rest : List Step) (s s' : Surroundings) (i i' : Invocation)
      (dir entry : Handle) (mode : UInt32)
      (hlast : LastStart steps i'.caller.thread before s i (.makeDir dir entry mode) between)
      (hparent : Covered before ((s.view 1).parentInodeOf entry))
      (hinode : (s'.view 0).inodeOf entry ≠ 0) :
      Covered (steps ++ .exit s' i' 0 :: rest) ((s'.view 0).inodeOf entry)

theorem Covered.ne_zero {steps : List Step} {inode : Inode} (h : Covered steps inode) :
    inode ≠ 0 := by
  cases h with
  | watched before inode rest hinode => exact hinode
  | made steps before between rest s s' i i' dir entry mode hlast hparent hinode => exact hinode

namespace Probe

variable {p : Probe} {steps before rest : List Step} {step : Step} {s s' : Surroundings}
  {i i' : Invocation} {args : Arguments} {inode : Inode} {config : Config} {processors : Nat}

/-! ### Runs of steps -/

theorem acted_map_call (p : Probe) (steps : List Step) :
    p.acted (steps.map .call) = p.after steps := List.foldl_map

theorem evictions_le_after (hfiltering : p.modes.filtering = true) (steps : List Step) :
    p.watched.inodes.evictions ≤ (p.after steps).watched.inodes.evictions := by
  rw [← acted_map_call]
  exact evictions_le_acted hfiltering _

/-- What a step of a run names is watched from then on, while nothing has to make room. -/
theorem holds_after_of_names (hfiltering : p.modes.filtering = true)
    (hkept : (p.after (before ++ step :: rest)).watched.inodes.evictions = 0) (hinode : inode ≠ 0)
    (hnames : Names p.modes (p.after before) step inode) :
    (p.after (before ++ step :: rest)).watched.Holds inode := by
  rw [← acted_map_call] at hkept ⊢
  refine (holds_acted hfiltering (hkept ▸ Nat.zero_le _)).2 (Or.inr ⟨hinode, ?_⟩)
  refine ⟨before.map .call, step, rest.map .call, by simp, ?_⟩
  rwa [acted_map_call]

/-- The calls of each thread come in turn, and neither a watched inode nor a call in flight has to
make room for another. -/
structure Undisturbed (p : Probe) (steps : List Step) : Prop where
  alternate : Alternate ∅ steps
  inodes_kept : (p.after steps).watched.inodes.evictions = 0
  calls_kept : ∀ t, ¬ Sometime (Evicts t) p steps

theorem Undisturbed.left (hfiltering : p.modes.filtering = true)
    (h : p.Undisturbed (steps ++ rest)) : p.Undisturbed steps where
  alternate := (alternate_append.1 h.alternate).1
  inodes_kept := by
    have hmode : (p.after steps).modes.filtering = true := by rwa [modes_after]
    have hle := evictions_le_after hmode rest
    rw [← after_append, h.inodes_kept] at hle
    exact Nat.le_zero.1 hle
  calls_kept t := fun hevicts => h.calls_kept t (sometime_append.2 (Or.inl hevicts))

/-! ### Scope -/

/-- An operation on a watched entry, or on one in a watched directory, is accepted. -/
theorem accepts_of_holds (hkind : p.modes.events.contains args.kind = true)
    (htraced : args.isTraced = true) (hinode : inode ≠ 0) (hheld : p.watched.Holds inode)
    (hsource : (s.view 1).inodeOf args.source = inode ∨
      (s.view 1).parentInodeOf args.source = inode) : p.Accepts s i args := by
  refine ⟨hkind, htraced, Or.inl (Or.inr ?_)⟩
  rw [Arguments.srcEntry_captured]
  rcases hsource with rfl | rfl
  · exact Or.inl ⟨hinode, hheld⟩
  · exact Or.inr ⟨hinode, hheld⟩

/-- A directory whose start was accepted, and whose call is kept, is named at the return. -/
theorem names_exit_of_makeDir (hmode : p.modes.resolution = p.resolver.mode)
    (hrecursive : p.modes.recursive = true) {dir entry : Handle} {mode : UInt32}
    (h : p.Outstanding steps i'.caller.thread s i (.makeDir dir entry mode)) :
    Names p.modes (p.after steps) (.exit s' i' 0) ((s'.view 0).inodeOf entry) := by
  have hparked := peek?_of_outstanding hmode h
  rw [Caller.key_thread] at hparked
  obtain ⟨e, he, hreports⟩ : ∃ e, ((p.after steps).exit s' i' 0).1 = some e ∧
      e.event.Reports (parked p.resolver.mode s i (.makeDir dir entry mode)).event 0 :=
    exit_of_some hparked
  have hkind : e.event.kind = .makeDir := hreports.kind_eq.trans kind_parked
  obtain ⟨call, hcall, -, hretval, hsource, -⟩ := inodes_of_exit he
  obtain rfl := Option.some.inj (hparked.symm.trans hcall)
  have hinode : e.event.src.inode = (s'.view 0).inodeOf entry := by
    rw [hsource hkind, srcEntry_parked, Arguments.srcEntry_captured]
    rfl
  exact Or.inr ⟨e, he, hretval, Or.inl ⟨hrecursive, hkind, hinode⟩⟩

/-- Every covered directory is watched. -/
theorem holds_of_covered (hnew : Probe.new config processors = .ok p)
    (hfiltering : p.modes.filtering = true) (hrecursive : p.modes.recursive = true)
    (hmakeDir : p.modes.events.contains .makeDir = true) (hcovered : Covered steps inode)
    (hrun : p.Undisturbed steps) : (p.after steps).watched.Holds inode := by
  -- on how the directory came to be covered: each level was watched before the next was started
  induction hcovered with
  | watched before inode rest hinode =>
    exact holds_after_of_names hfiltering hrun.inodes_kept hinode (Or.inl rfl)
  | made steps before between rest s s' i i' dir entry mode hlast hparent hinode ih =>
    have hreturn := hrun.left hfiltering
    have hsplit : steps = before ++ .enter s i (.makeDir dir entry mode) :: between := hlast.split
    have hstart : p.Undisturbed before := (hsplit ▸ hreturn).left hfiltering
    have haccepts : (p.after before).Accepts s i (.makeDir dir entry mode) :=
      accepts_of_holds (by rwa [modes_after]) rfl hparent.ne_zero (ih hstart) (Or.inr rfl)
    have hkept : ¬ Sometime (Evicts i'.caller.thread)
        (p.after (before ++ [.enter s i (.makeDir dir entry mode)])) between := by
      intro hevicts
      refine hreturn.calls_kept i'.caller.thread ?_
      rw [hsplit, List.append_cons]
      exact sometime_append.2 (Or.inr hevicts)
    have houtstanding : p.Outstanding steps i'.caller.thread s i (.makeDir dir entry mode) :=
      (outstanding_iff_of_alternate hnew hreturn.alternate hlast).2 ⟨rfl, haccepts, hkept⟩
    have hmode : p.modes.resolution = p.resolver.mode := by
      rw [eq_of_new hnew]
      exact (Resolver.mode_new _ _).symm
    exact holds_after_of_names hfiltering hrun.inodes_kept hinode
      (names_exit_of_makeDir hmode hrecursive houtstanding)

/-- **A tree that grows below a watched directory is in scope.** With filtering, where directories
are watched as they are made, and while nothing has to make room: every directory that was watched,
or was made below one that was, at any depth, is watched from then on. So the start of every traced
operation on it, or on an entry that it contains, is accepted, and the call is kept, wherever the
directory is by then. -/
theorem accepts_of_covered (hnew : Probe.new config processors = .ok p)
    (hfiltering : config.filteringEnabled = true) (hrecursive : config.recursiveWatch = true)
    (hmakeDir : (Modes.ofConfig config).events.contains .makeDir = true)
    (hrun : p.Undisturbed steps) (hcovered : Covered steps inode) :
    (p.after steps).watched.Holds inode ∧
      ∀ s i args, (Modes.ofConfig config).events.contains args.kind = true →
        args.isTraced = true →
        ((s.view 1).inodeOf args.source = inode ∨ (s.view 1).parentInodeOf args.source = inode) →
        (p.after steps).Accepts s i args ∧
          ∃ call : PendingCall, call.Keeps (args.captured (s.view 0) i.caller).event ∧
            ((p.after steps).enter s i args).pending.peek? i.caller.threadKey = some call := by
  have hmodes := (fields_of_new hnew).1
  have hheld : (p.after steps).watched.Holds inode :=
    holds_of_covered hnew (by rw [hmodes]; exact hfiltering) (by rw [hmodes]; exact hrecursive)
      (by rwa [hmodes]) hcovered hrun
  refine ⟨hheld, fun s i args hkind htraced hsource => ?_⟩
  have haccepts : (p.after steps).Accepts s i args :=
    accepts_of_holds (by rwa [modes_after, hmodes]) htraced hcovered.ne_zero hheld hsource
  obtain ⟨call, hkeeps, hpending⟩ := pending_enter_of_accepts haccepts
  refine ⟨haccepts, call, hkeeps, ?_⟩
  rw [hpending]
  exact Table.peek?_insert_self _ _ _

/-- A tree of nested directories, each of which has its number for an inode, as far as they are
made yet. -/
def nest (made : Nat) : Surroundings where
  view := .still ⟨fun _ _ => none, fun d => some ⟨d.id - 1⟩,
    fun d => if d.id ≤ made then some d.id else none, fun _ => none, fun _ => none⟩
  drawn _ := ⟨1, ne_zero_drawn_plain⟩

/-- Below a watched directory two are made, one in the other. An entry in the inner one is
opened. -/
theorem accepts_of_covered_nest :
    ∃ p, Probe.new {} 1 = .ok p ∧
      (p.after [.watch 1, .enter (nest 1) {} (.makeDir ⟨1⟩ ⟨2⟩ 0), .exit (nest 2) {} 0,
        .enter (nest 2) {} (.makeDir ⟨2⟩ ⟨3⟩ 0), .exit (nest 3) {} 0]).Accepts (nest 4) {}
          (.openFile ⟨4⟩ 0) := by
  obtain ⟨p, hnew⟩ : ∃ p, Probe.new {} 1 = .ok p := ⟨_, rfl⟩
  refine ⟨p, hnew, ?_⟩
  have hwatched : Covered [.watch 1] 1 := .watched [] 1 [] (by decide)
  have houter : Covered [.watch 1, .enter (nest 1) {} (.makeDir ⟨1⟩ ⟨2⟩ 0),
      .exit (nest 2) {} 0] 2 :=
    .made [_, _] [_] [] [] (nest 1) (nest 2) {} {} ⟨1⟩ ⟨2⟩ 0 ⟨rfl, rfl, by simp⟩ hwatched
      (by decide)
  have hinner : Covered [.watch 1, .enter (nest 1) {} (.makeDir ⟨1⟩ ⟨2⟩ 0), .exit (nest 2) {} 0,
      .enter (nest 2) {} (.makeDir ⟨2⟩ ⟨3⟩ 0), .exit (nest 3) {} 0] 3 :=
    .made [_, _, _, _] [_, _, _] [] [] (nest 2) (nest 3) {} {} ⟨2⟩ ⟨3⟩ 0 ⟨rfl, rfl, by simp⟩ houter
      (by decide)
  have hturns : Alternate ∅ [.watch 1, .enter (nest 1) {} (.makeDir ⟨1⟩ ⟨2⟩ 0),
      .exit (nest 2) {} 0, .enter (nest 2) {} (.makeDir ⟨2⟩ ⟨3⟩ 0), .exit (nest 3) {} 0] := by
    simp [Alternate, Step.Allowed, Step.turn]
  have hrun : p.Undisturbed [.watch 1, .enter (nest 1) {} (.makeDir ⟨1⟩ ⟨2⟩ 0),
      .exit (nest 2) {} 0, .enter (nest 2) {} (.makeDir ⟨2⟩ ⟨3⟩ 0), .exit (nest 3) {} 0] := by
    refine ⟨hturns, ?_, fun t => ?_⟩
    · rw [← acted_map_call]
      exact evictions_acted_of_new hnew rfl (by decide)
    · change ¬ Sometime (Evicts t) (p.after []) _
      exact not_sometime_evicts hnew hturns (by decide)
  obtain ⟨-, haccepts⟩ := accepts_of_covered hnew rfl rfl (by decide) hrun hinner
  exact (haccepts (nest 4) {} (.openFile ⟨4⟩ 0) (by decide) rfl (Or.inr (by decide))).1

end Probe

end FsTrace
