import FsTrace.Proofs.CallAccounts

/-!
# Growth of the watched set

Which inodes are watched after a run of handler calls that drops none of them. Questions whether an
entry is in scope may come in between: they mark what they find as used, which does not show.

* `WatchSet.Agrees`: two sets that watch the same. Asking leads from one to the other
  (`WatchSet.agrees_inScope`), and registering an inode only adds it (`WatchSet.holds_register`);
* `Event.BringsIn`, `Probe.Names`: the inodes that a record, and a step, brings into the set;
* `Probe.watched_next`: everything that a step does to the set;
* `Act` and `Probe.acted`: steps and questions, one after another, with `Probe.holds_acted`;
* `Probe.holds_named`: what is watched after them, that it stays in scope, and that without
  filtering nothing changes.
-/

namespace FsTrace

/-! ### Sets of watched inodes -/

namespace WatchSet

variable {w w' w'' : WatchSet} {inode parentInode i : Inode}

/-- An inode is in the set. -/
def Holds (w : WatchSet) (inode : Inode) : Prop := (w.inodes.peek? inode).isSome = true

/-- Two sets hold the same inodes, have as much room, and have dropped as many. -/
structure Agrees (w w' : WatchSet) : Prop where
  peek?_eq : ∀ inode, w'.inodes.peek? inode = w.inodes.peek? inode
  evictions_eq : w'.inodes.evictions = w.inodes.evictions
  size_eq : w'.size = w.size
  capacity_eq : w'.inodes.capacity = w.inodes.capacity

theorem Agrees.refl (w : WatchSet) : w.Agrees w := ⟨fun _ => rfl, rfl, rfl, rfl⟩

theorem Agrees.trans (h : w.Agrees w') (h' : w'.Agrees w'') : w.Agrees w'' where
  peek?_eq inode := (h'.peek?_eq inode).trans (h.peek?_eq inode)
  evictions_eq := h'.evictions_eq.trans h.evictions_eq
  size_eq := h'.size_eq.trans h.size_eq
  capacity_eq := h'.capacity_eq.trans h.capacity_eq

theorem Agrees.holds_iff (h : w.Agrees w') (inode : Inode) : w'.Holds inode ↔ w.Holds inode := by
  rw [Holds, h.peek?_eq, Holds]

theorem agrees_watches (w : WatchSet) (inode : Inode) : w.Agrees (w.watches inode).2 := by
  unfold watches
  split
  · exact .refl w
  · exact ⟨fun _ => Table.peek?_get _ _ _, Table.evictions_get _ _, Table.size_get _ _,
      Table.capacity_get _ _⟩

theorem agrees_inScope (w : WatchSet) (inode parentInode : Inode) :
    w.Agrees (w.inScope inode parentInode).2 := by
  have hsource := w.agrees_watches inode
  unfold inScope
  split
  · split
    · next h =>
      rw [h] at hsource
      exact hsource
    · next h =>
      rw [h] at hsource
      exact hsource.trans (agrees_watches _ parentInode)
  · exact .refl w

/-- Registering an inode lets it in, unless it is none or there already. -/
theorem register_cases (w : WatchSet) (inode : Inode) :
    (inode = 0 ∨ w.Holds inode) ∧ w.Agrees (w.register inode).2 ∨
      inode ≠ 0 ∧ ∃ asked, w.Agrees asked ∧
        (w.register inode).2 = { asked with inodes := (asked.inodes.insert inode ()).2 } := by
  have hagrees := w.agrees_watches inode
  have hfound : (w.watches inode).1 = true ↔ w.Watches inode := fst_watches
  unfold register
  split
  · next hzero => exact Or.inl ⟨Or.inl hzero, .refl w⟩
  · next hzero =>
    split
    · next asked h =>
      rw [h] at hagrees hfound
      exact Or.inl ⟨Or.inr (hfound.1 rfl).2, hagrees⟩
    · next asked h =>
      rw [h] at hagrees
      exact Or.inr ⟨hzero, asked, hagrees, rfl⟩

theorem evictions_le_register (w : WatchSet) (inode : Inode) :
    w.inodes.evictions ≤ (w.register inode).2.inodes.evictions := by
  rcases w.register_cases inode with ⟨-, hagrees⟩ | ⟨-, asked, hagrees, hregister⟩
  · exact hagrees.evictions_eq.ge
  · rw [hregister]
    calc w.inodes.evictions
        = asked.inodes.evictions := hagrees.evictions_eq.symm
      _ ≤ (asked.inodes.insert inode ()).2.evictions := by
        rw [Table.evictions_insert]
        exact Nat.le_add_right _ _

/-- With room for one more, a registered inode drops none. -/
theorem register_of_room (h : w.size < w.inodes.capacity) (inode : Inode) :
    (w.register inode).2.inodes.evictions = w.inodes.evictions ∧
      (w.register inode).2.size ≤ w.size + 1 ∧
      (w.register inode).2.inodes.capacity = w.inodes.capacity := by
  rcases w.register_cases inode with ⟨-, hagrees⟩ | ⟨-, asked, hagrees, hregister⟩
  · exact ⟨hagrees.evictions_eq, by rw [hagrees.size_eq]; exact Nat.le_succ _, hagrees.capacity_eq⟩
  · rw [← hagrees.size_eq, ← hagrees.capacity_eq] at h
    obtain ⟨hnone, hsize⟩ := Table.insert_of_room h inode ()
    rw [hregister, ← hagrees.size_eq, ← hagrees.capacity_eq, ← hagrees.evictions_eq]
    exact ⟨by rw [Table.evictions_insert, hnone]; rfl, hsize, Table.capacity_insert _ _ _⟩

/-- Unless another one had to make room, a set holds a registered inode besides the others. -/
theorem holds_register (hkept : (w.register inode).2.inodes.evictions ≤ w.inodes.evictions) :
    (w.register inode).2.Holds i ↔ w.Holds i ∨ i ≠ 0 ∧ i = inode := by
  rcases w.register_cases inode with ⟨hthere, hagrees⟩ | ⟨hzero, asked, hagrees, hregister⟩
  · rw [hagrees.holds_iff]
    refine (or_iff_left_of_imp ?_).symm
    rintro ⟨hi, rfl⟩
    exact hthere.resolve_left hi
  · rw [hregister] at hkept ⊢
    have hnone : (asked.inodes.insert inode ()).1 = none :=
      Table.fst_insert_eq_none (hkept.trans hagrees.evictions_eq.ge)
    rw [← hagrees.holds_iff]
    by_cases hi : i = inode
    · subst hi
      simp [Holds, hzero]
    · have hother : (asked.inodes.insert inode ()).2.peek? i = asked.inodes.peek? i :=
        Table.peek?_insert_of_ne (Ne.symm hi) (hnone ▸ Option.some_ne_none i |>.symm)
      simp [Holds, hother, hi]

end WatchSet

/-! ### One step -/

/-- A record brings an inode into the set: that of a directory that was made, or of an entry that
was renamed, if the operation succeeded and such are followed. -/
def Event.BringsIn (modes : Modes) (e : Event) (inode : Inode) : Prop :=
  e.retval = 0 ∧
    (modes.recursive = true ∧ e.kind = .makeDir ∧ e.src.inode = inode ∨
      modes.followRenames = true ∧ e.kind = .rename ∧ e.target.inode = inode)

theorem Event.BringsIn.unique {modes : Modes} {e : Event} {inode inode' : Inode}
    (h : e.BringsIn modes inode) (h' : e.BringsIn modes inode') : inode = inode' := by
  obtain ⟨-, ⟨-, hkind, rfl⟩ | ⟨-, hkind, rfl⟩⟩ := h <;>
    obtain ⟨-, ⟨-, hkind', rfl⟩ | ⟨-, hkind', rfl⟩⟩ := h'
  · rfl
  · exact absurd (hkind.symm.trans hkind') (by decide)
  · exact absurd (hkind.symm.trans hkind') (by decide)
  · rfl

namespace Probe

variable {p q : Probe} {s : Surroundings} {i : Invocation} {args : Arguments} {retval : Int64}
  {call : PendingCall} {step : Step} {event : Event} {e : Emission} {inode : Inode}

/-- A step names an inode to be watched: on request, or by the record that it gives. -/
def Names (modes : Modes) (p : Probe) (step : Step) (inode : Inode) : Prop :=
  step = .watch inode ∨ ∃ e, p.emission? step = some e ∧ e.event.BringsIn modes inode

theorem watched_registerFollowup_of_bringsIn (hfiltering : p.modes.filtering = true)
    (h : event.BringsIn p.modes inode) :
    (p.registerFollowup event).watched = (p.watched.register inode).2 := by
  obtain ⟨hretval, ⟨hmode, hkind, rfl⟩ | ⟨hmode, hkind, rfl⟩⟩ := h
  · simp [registerFollowup, hkind, Modes.registersNewDirectories, hfiltering, hmode, hretval,
      watch, countIf]
  · simp [registerFollowup, hkind, Modes.registersRenamedEntries, hfiltering, hmode, hretval,
      watch, countIf]

theorem watched_registerFollowup_of_not
    (h : p.modes.filtering = true → ∀ inode, ¬ event.BringsIn p.modes inode) :
    (p.registerFollowup event).watched = p.watched := by
  have hmade : event.kind = .makeDir → event.retval = 0 →
      p.modes.registersNewDirectories = false := by
    refine fun hkind hretval => Bool.eq_false_iff.2 fun hmode => ?_
    obtain ⟨hfiltering, hrecursive⟩ := Bool.and_eq_true_iff.1 hmode
    exact h hfiltering _ ⟨hretval, Or.inl ⟨hrecursive, hkind, rfl⟩⟩
  have hrenamed : event.kind = .rename → event.retval = 0 →
      p.modes.registersRenamedEntries = false := by
    refine fun hkind hretval => Bool.eq_false_iff.2 fun hmode => ?_
    obtain ⟨hfiltering, hfollow⟩ := Bool.and_eq_true_iff.1 hmode
    exact h hfiltering _ ⟨hretval, Or.inr ⟨hfollow, hkind, rfl⟩⟩
  unfold registerFollowup
  by_cases hretval : event.retval = 0
  · cases hkind : event.kind with
    | makeDir => simp [hmade hkind hretval]
    | rename => simp [hrenamed hkind hretval]
    | _ => simp
  · simp only [if_neg hretval]
    split <;> rfl

/-- What a record brings in depends on the switches and on what is watched. -/
theorem watched_registerFollowup_congr (hmodes : q.modes = p.modes)
    (hwatched : q.watched = p.watched) (event : Event) :
    (q.registerFollowup event).watched = (p.registerFollowup event).watched := by
  by_cases h : p.modes.filtering = true ∧ ∃ inode, event.BringsIn p.modes inode
  · obtain ⟨hfiltering, inode, hbrings⟩ := h
    rw [watched_registerFollowup_of_bringsIn hfiltering hbrings,
      watched_registerFollowup_of_bringsIn (hmodes ▸ hfiltering) (hmodes ▸ hbrings), hwatched]
  · have hnot : p.modes.filtering = true → ∀ inode, ¬ event.BringsIn p.modes inode :=
      fun hfiltering inode hbrings => h ⟨hfiltering, inode, hbrings⟩
    rw [watched_registerFollowup_of_not hnot, watched_registerFollowup_of_not (hmodes ▸ hnot),
      hwatched]

/-! ### The start of an operation -/

theorem agrees_inScope (p : Probe) (a : Accessor) (call : PendingCall) :
    p.watched.Agrees (p.inScope a call).2.watched := by
  have hsource := p.watched.agrees_inScope (a.inodeOf call.srcEntry) (a.parentInodeOf call.srcEntry)
  unfold inScope
  split
  · next h =>
    rw [h] at hsource
    exact hsource
  · next h =>
    rw [h] at hsource
    split
    · exact hsource.trans (WatchSet.agrees_inScope _ _ _)
    · exact hsource

theorem watched_inScope_of_disabled (h : p.watched.enabled = false) (a : Accessor)
    (call : PendingCall) : (p.inScope a call).2.watched = p.watched := by
  simp [inScope, WatchSet.inScope, h]

theorem watched_park (p : Probe) (key : Nat) (call : PendingCall) :
    (p.park key call).watched = p.watched :=
  congrArg Books.watched (books_park p key call)

/-- A start asks whether it is in scope, if it is traced, and does nothing else to the set. -/
theorem watched_enter (p : Probe) (s : Surroundings) (i : Invocation) (args : Arguments) :
    (p.enter s i args).watched = p.watched ∨
      (p.enter s i args).watched =
        (p.inScope (s.view 1) (args.captured (s.view 0) i.caller)).2.watched := by
  by_cases htraced : (p.modes.events.contains args.kind && args.isTraced) = true
  · refine Or.inr ?_
    by_cases haccepts : p.Accepts s i args
    · obtain ⟨watched, rfl, henter⟩ := enter_of_accepts haccepts
      rw [henter]
      simp only
      split
      · rw [watched_park]
        exact congrArg Books.watched books_resolveRenameSource
      · rw [watched_park]
    · obtain ⟨watched, scratch, hwatched, henter⟩ := enter_of_filtered htraced haccepts
      rw [henter, hwatched]
      rfl
  · exact Or.inl (by rw [enter_of_not_traced htraced])

theorem agrees_enter (p : Probe) (s : Surroundings) (i : Invocation) (args : Arguments) :
    p.watched.Agrees (p.enter s i args).watched := by
  rcases p.watched_enter s i args with h | h
  · rw [h]
    exact .refl _
  · rw [h]
    exact p.agrees_inScope _ _

/-! ### The return of an operation -/

theorem watched_finish :
    (p.finish s i retval call).2.watched =
      (p.registerFollowup (p.finish s i retval call).1.event).watched := by
  simp only [finish]
  refine watched_registerFollowup_congr ?_ ?_ _
  · exact congrArg Prod.fst (settings_targetPath.trans settings_sourcePath)
  · exact congrArg Books.watched (books_targetPath.trans books_sourcePath)

/-- A return does to the set what its record says. -/
theorem watched_exit_of_some (h : (p.exit s i retval).1 = some e) :
    (p.exit s i retval).2.watched = (p.registerFollowup e.event).watched := by
  cases hcall : p.pending.peek? i.caller.threadKey with
  | some call =>
    rw [exit_eq hcall] at h ⊢
    have he : ((p.takeOut i).finish s i retval call).1 = e := Option.some.inj h
    rw [← he]
    exact watched_finish.trans
      (watched_registerFollowup_congr (p := p) (q := p.takeOut i) rfl rfl _)
  | none => simp [exit_of_none hcall] at h

theorem watched_exit_of_none (h : (p.exit s i retval).1 = none) :
    (p.exit s i retval).2.watched = p.watched := by
  cases hcall : p.pending.peek? i.caller.threadKey with
  | some call => simp [exit_eq hcall] at h
  | none =>
    rw [exit_eq_of_none hcall]
    rfl

/-! ### What a step does -/

/-- A step leaves what is watched as it is, or registers the one inode that it names. -/
theorem watched_next (hfiltering : p.modes.filtering = true) (step : Step) :
    (∀ inode, ¬ Names p.modes p step inode) ∧ p.watched.Agrees (p.next step).watched ∨
      ∃ inode, (∀ i, Names p.modes p step i ↔ i = inode) ∧
        (p.next step).watched = (p.watched.register inode).2 := by
  cases step with
  | enter s i args =>
    refine Or.inl ⟨?_, p.agrees_enter s i args⟩
    rintro inode (hstep | ⟨e, he, -⟩)
    · cases hstep
    · cases he
  | exit s i retval =>
    cases he : (p.exit s i retval).1 with
    | some e =>
      have hnames : ∀ inode, Names p.modes p (.exit s i retval) inode ↔
          e.event.BringsIn p.modes inode := by
        intro inode
        simp [Names, emission?, he]
      have hwatched := watched_exit_of_some he
      by_cases hbrings : ∃ inode, e.event.BringsIn p.modes inode
      · obtain ⟨inode, hbrings⟩ := hbrings
        refine Or.inr ⟨inode, fun i => (hnames i).trans ⟨fun h => h.unique hbrings, ?_⟩, ?_⟩
        · rintro rfl
          exact hbrings
        · exact hwatched.trans (watched_registerFollowup_of_bringsIn hfiltering hbrings)
      · have hnot : ∀ inode, ¬ e.event.BringsIn p.modes inode := not_exists.1 hbrings
        refine Or.inl ⟨fun inode => mt (hnames inode).1 (hnot inode), ?_⟩
        rw [next, hwatched, watched_registerFollowup_of_not fun _ => hnot]
        exact .refl _
    | none =>
      refine Or.inl ⟨?_, ?_⟩
      · rintro inode (hstep | ⟨e, he', -⟩)
        · cases hstep
        · exact Option.some_ne_none e (he'.symm.trans he)
      · rw [next, watched_exit_of_none he]
        exact .refl _
  | watch requested =>
    refine Or.inr ⟨requested, fun inode => ⟨?_, ?_⟩, rfl⟩
    · rintro (hstep | ⟨e, he, -⟩)
      · exact (Step.watch.inj hstep).symm
      · cases he
    · rintro rfl
      exact Or.inl rfl

theorem evictions_le_next (hfiltering : p.modes.filtering = true) (step : Step) :
    p.watched.inodes.evictions ≤ (p.next step).watched.inodes.evictions := by
  rcases watched_next hfiltering step with ⟨-, hagrees⟩ | ⟨inode, -, hregister⟩
  · exact hagrees.evictions_eq.ge
  · rw [hregister]
    exact WatchSet.evictions_le_register _ _

/-- Unless one had to make room, what a step names is watched besides what was. -/
theorem holds_next (hfiltering : p.modes.filtering = true)
    (hkept : (p.next step).watched.inodes.evictions ≤ p.watched.inodes.evictions) :
    (p.next step).watched.Holds inode ↔
      p.watched.Holds inode ∨ inode ≠ 0 ∧ Names p.modes p step inode := by
  rcases watched_next hfiltering step with ⟨hnone, hagrees⟩ | ⟨named, hnamed, hregister⟩
  · rw [hagrees.holds_iff]
    exact (or_iff_left fun h => hnone inode h.2).symm
  · rw [hregister] at hkept ⊢
    rw [WatchSet.holds_register hkept, hnamed]

/-! ### Inodes in records -/

theorem inode_recordPath (e : Endpoint) (path : PathRef) : (e.recordPath path).inode = e.inode := by
  cases path <;> rfl

theorem inode_readOutcome_of_makeDir (h : call.event.kind = .makeDir) (a : Accessor) :
    (readOutcome a retval call).event.src.inode = a.inodeOf call.srcEntry := by
  simp [readOutcome, h]

theorem inode_readOutcome_of_rename (h : call.event.kind = .rename) (a : Accessor) :
    (readOutcome a retval call).event.target.inode = a.inodeOf call.targetEntry := by
  simp [readOutcome, h]

/-- The inodes of a record are those that are known once the operation has run. -/
theorem inodes_finish :
    (p.finish s i retval call).1.event.src.inode =
        (readOutcome (s.view 0) retval call).event.src.inode ∧
      (p.finish s i retval call).1.event.target.inode =
        (readOutcome (s.view 0) retval call).event.target.inode := by
  simp only [finish]
  exact ⟨inode_recordPath _ _, inode_recordPath _ _⟩

/-- The record of a directory that was made has the inode that is read at the return, and that of a
renamed entry the inode of its target. -/
theorem inodes_of_exit (h : (p.exit s i retval).1 = some e) :
    ∃ call, p.pending.peek? i.caller.threadKey = some call ∧ e.event.kind = call.event.kind ∧
      e.event.retval = retval ∧
      (e.event.kind = .makeDir → e.event.src.inode = (s.view 0).inodeOf call.srcEntry) ∧
      (e.event.kind = .rename → e.event.target.inode = (s.view 0).inodeOf call.targetEntry) := by
  cases hcall : p.pending.peek? i.caller.threadKey with
  | some call =>
    rw [exit_eq hcall] at h
    have he : ((p.takeOut i).finish s i retval call).1 = e := Option.some.inj h
    obtain ⟨hsource, htarget⟩ : e.event.src.inode = _ ∧ e.event.target.inode = _ :=
      he ▸ inodes_finish
    have hreports : e.event.Reports call.event retval := he ▸ reports_finish
    refine ⟨call, rfl, hreports.kind_eq, hreports.retval_eq, fun hkind => ?_, fun hkind => ?_⟩
    · exact hsource.trans (inode_readOutcome_of_makeDir (hreports.kind_eq ▸ hkind) _)
    · exact htarget.trans (inode_readOutcome_of_rename (hreports.kind_eq ▸ hkind) _)
  | none => simp [exit_of_none hcall] at h

end Probe

/-! ### Steps and questions -/

/-- What is asked of a probe: a call of a handler, or whether an entry is in scope. -/
inductive Act
  | call (step : Step)
  | ask (inode parentInode : Inode)

namespace Probe

variable {p : Probe} {s : Surroundings} {i : Invocation} {args : Arguments} {retval : Int64}
  {act : Act} {acts before rest : List Act} {inode parentInode : Inode} {config : Config}
  {processors : Nat}

/-- The probe after one act. -/
def perform (p : Probe) : Act → Probe
  | .call step => p.next step
  | .ask inode parentInode => { p with watched := (p.watched.inScope inode parentInode).2 }

@[simp] theorem perform_call (p : Probe) (step : Step) : p.perform (.call step) = p.next step := rfl

@[simp] theorem watched_perform_ask (p : Probe) (inode parentInode : Inode) :
    (p.perform (.ask inode parentInode)).watched = (p.watched.inScope inode parentInode).2 := rfl

/-- The probe after some acts. -/
def acted (p : Probe) (acts : List Act) : Probe := acts.foldl perform p

theorem acted_append (p : Probe) (acts acts' : List Act) :
    p.acted (acts ++ acts') = (p.acted acts).acted acts' := List.foldl_append

theorem settings_perform : (p.perform act).settings = p.settings := by
  cases act with
  | call step => exact settings_next
  | ask inode parentInode =>
    exact congrArg (p.modes, p.resolver.mode, ·) WatchSet.enabled_inScope

theorem settings_acted : (p.acted acts).settings = p.settings := by
  induction acts generalizing p with
  | nil => rfl
  | cons act acts ih => exact ih.trans settings_perform

theorem modes_acted : (p.acted acts).modes = p.modes := congrArg Prod.fst settings_acted

theorem evictions_le_perform (hfiltering : p.modes.filtering = true) (act : Act) :
    p.watched.inodes.evictions ≤ (p.perform act).watched.inodes.evictions := by
  cases act with
  | call step => exact evictions_le_next hfiltering step
  | ask inode parentInode => exact (p.watched.agrees_inScope inode parentInode).evictions_eq.ge

theorem evictions_le_acted (hfiltering : p.modes.filtering = true) (acts : List Act) :
    p.watched.inodes.evictions ≤ (p.acted acts).watched.inodes.evictions := by
  induction acts generalizing p with
  | nil => exact le_rfl
  | cons act acts ih =>
    have hmodes : (p.perform act).modes = p.modes := congrArg Prod.fst settings_perform
    exact (evictions_le_perform hfiltering act).trans (ih (hmodes ▸ hfiltering))

theorem perform_of_room (hfiltering : p.modes.filtering = true)
    (h : p.watched.size < p.watched.inodes.capacity) (act : Act) :
    (p.perform act).watched.inodes.evictions = p.watched.inodes.evictions ∧
      (p.perform act).watched.size ≤ p.watched.size + 1 ∧
      (p.perform act).watched.inodes.capacity = p.watched.inodes.capacity := by
  have hagrees : ∀ {w}, p.watched.Agrees w → w.inodes.evictions = p.watched.inodes.evictions ∧
      w.size ≤ p.watched.size + 1 ∧ w.inodes.capacity = p.watched.inodes.capacity :=
    fun h => ⟨h.evictions_eq, h.size_eq.trans_le (Nat.le_succ _), h.capacity_eq⟩
  cases act with
  | call step =>
    rcases watched_next hfiltering step with ⟨-, hsame⟩ | ⟨inode, -, hregister⟩
    · exact hagrees hsame
    · rw [perform_call, hregister]
      exact WatchSet.register_of_room h inode
  | ask inode parentInode => exact hagrees (p.watched.agrees_inScope inode parentInode)

/-- With room for as many inodes as there are acts, none is dropped. -/
theorem evictions_acted_of_room (hfiltering : p.modes.filtering = true)
    (h : p.watched.size + acts.length ≤ p.watched.inodes.capacity) :
    (p.acted acts).watched.inodes.evictions = p.watched.inodes.evictions := by
  induction acts generalizing p with
  | nil => rfl
  | cons act acts ih =>
    have hmodes : (p.perform act).modes = p.modes := congrArg Prod.fst settings_perform
    rw [List.length_cons] at h
    obtain ⟨hevictions, hsize, hcapacity⟩ := perform_of_room hfiltering (by omega) act
    exact (ih (hmodes ▸ hfiltering) (by omega)).trans hevictions

/-- A step of a run names an inode to be watched. -/
def Named (modes : Modes) (p : Probe) (acts : List Act) (inode : Inode) : Prop :=
  ∃ before step rest, acts = before ++ .call step :: rest ∧ Names modes (p.acted before) step inode

theorem named_cons {modes : Modes} :
    Named modes p (act :: acts) inode ↔
      (∃ step, act = .call step ∧ Names modes p step inode) ∨
        Named modes (p.perform act) acts inode := by
  constructor
  · rintro ⟨before, step, rest, hsplit, hnames⟩
    cases before with
    | nil => exact Or.inl ⟨step, (List.cons.inj hsplit).1, hnames⟩
    | cons first before =>
      obtain ⟨rfl, rfl⟩ := List.cons.inj hsplit
      exact Or.inr ⟨before, step, rest, rfl, hnames⟩
  · rintro (⟨step, rfl, hnames⟩ | ⟨before, step, rest, rfl, hnames⟩)
    · exact ⟨[], step, acts, rfl, hnames⟩
    · exact ⟨act :: before, step, rest, rfl, hnames⟩

theorem holds_perform (hfiltering : p.modes.filtering = true)
    (hkept : (p.perform act).watched.inodes.evictions ≤ p.watched.inodes.evictions) :
    (p.perform act).watched.Holds inode ↔
      p.watched.Holds inode ∨
        inode ≠ 0 ∧ ∃ step, act = .call step ∧ Names p.modes p step inode := by
  cases act with
  | call step => simpa using holds_next hfiltering hkept
  | ask asked parentInode => simpa using (p.watched.agrees_inScope asked parentInode).holds_iff _

/-- Unless one had to make room, what is named in a run is watched besides what was. -/
theorem holds_acted (hfiltering : p.modes.filtering = true)
    (hkept : (p.acted acts).watched.inodes.evictions ≤ p.watched.inodes.evictions) :
    (p.acted acts).watched.Holds inode ↔
      p.watched.Holds inode ∨ inode ≠ 0 ∧ Named p.modes p acts inode := by
  induction acts generalizing p with
  | nil => simp [acted, Named]
  | cons act acts ih =>
    have hmodes : (p.perform act).modes = p.modes := congrArg Prod.fst settings_perform
    have hfirst := evictions_le_perform hfiltering act
    have hrest := evictions_le_acted (p := p.perform act) (hmodes ▸ hfiltering) acts
    show ((p.perform act).acted acts).watched.Holds inode ↔ _
    rw [ih (hmodes ▸ hfiltering) (le_trans hkept hfirst),
      holds_perform hfiltering (le_trans hrest hkept), named_cons, hmodes, and_or_left, or_assoc]

/-- What was in scope stays so while nothing has to make room. -/
theorem inScope_acted (hfiltering : p.modes.filtering = true)
    (hkept : (p.acted acts).watched.inodes.evictions ≤ p.watched.inodes.evictions)
    (h : (p.watched.inScope inode parentInode).1 = true) :
    ((p.acted acts).watched.inScope inode parentInode).1 = true := by
  have henabled : (p.acted acts).watched.enabled = p.watched.enabled :=
    congrArg (·.2.2) settings_acted
  rw [WatchSet.fst_inScope] at h ⊢
  have hstays : ∀ inode, p.watched.Watches inode → (p.acted acts).watched.Watches inode :=
    fun inode hwatches => ⟨hwatches.1, (holds_acted hfiltering hkept).2 (Or.inl hwatches.2)⟩
  exact Or.imp henabled.trans (Or.imp (hstays _) (hstays _)) h

/-! ### New probes -/

/-- A new probe drops no inode while there are no more acts than its set has room for. -/
theorem evictions_acted_of_new (hnew : Probe.new config processors = .ok p)
    (hfiltering : config.filteringEnabled = true)
    (h : acts.length ≤ config.capacities.inodeFilter) :
    (p.acted acts).watched.inodes.evictions = 0 := by
  obtain ⟨hmodes, -, hwatched⟩ := fields_of_new hnew
  have hroom : p.watched.size + acts.length ≤ p.watched.inodes.capacity := by
    rw [hwatched]
    exact (Nat.zero_add _).trans_le (h.trans (le_max_left _ _))
  rw [evictions_acted_of_room (by rw [hmodes]; exact hfiltering) hroom, hwatched]
  rfl

/-- What is watched after some acts of a new probe, of whose inodes none had to make room. -/
structure HoldsNamed (config : Config) (p : Probe) (acts : List Act) : Prop where
  /-- Only what was named is watched, and all of it but for what is no inode. -/
  holds_iff : ∀ inode, (p.acted acts).watched.Holds inode ↔
    inode ≠ 0 ∧ Named (.ofConfig config) p acts inode
  /-- What a record names was read at the return. -/
  names_read : ∀ before s i retval rest e, acts = before ++ .call (.exit s i retval) :: rest →
    ((p.acted before).exit s i retval).1 = some e →
    ∃ call, (p.acted before).pending.peek? i.caller.threadKey = some call ∧
      e.event.kind = call.event.kind ∧ e.event.retval = retval ∧
      (e.event.kind = .makeDir → e.event.src.inode = (s.view 0).inodeOf call.srcEntry) ∧
      (e.event.kind = .rename → e.event.target.inode = (s.view 0).inodeOf call.targetEntry)
  /-- What was in scope at some point is in scope ever after. -/
  inScope_stays : ∀ before rest inode parentInode, acts = before ++ rest →
    ((p.acted before).watched.inScope inode parentInode).1 = true →
    ((p.acted acts).watched.inScope inode parentInode).1 = true
  /-- A renamed entry that is followed is in scope ever after, wherever it is. -/
  renamed_inScope : config.followRenames = true → ∀ before s i rest e,
    acts = before ++ .call (.exit s i 0) :: rest →
    ((p.acted before).exit s i 0).1 = some e → e.event.kind = .rename →
    e.event.target.inode ≠ 0 → ∀ parentInode,
      ((p.acted acts).watched.inScope e.event.target.inode parentInode).1 = true

/-- **Growth of the watched set.** With filtering, and while no watched inode has to make room, the
inodes that are watched after any acts are just those that were named: on request, or by the record
of an operation that succeeded, if such are followed. So what was in scope stays so. Without
filtering, no start and no return of an operation changes the set. -/
theorem holds_named (hnew : Probe.new config processors = .ok p) (acts : List Act) :
    (config.filteringEnabled = true → (p.acted acts).watched.inodes.evictions = 0 →
      p.HoldsNamed config acts) ∧
    (config.filteringEnabled = false → ∀ s i args retval,
      ((p.acted acts).enter s i args).watched = (p.acted acts).watched ∧
        ((p.acted acts).exit s i retval).2.watched = (p.acted acts).watched) := by
  obtain ⟨hmodes, -, hwatched⟩ := fields_of_new hnew
  constructor
  · intro hfiltering hkept
    have hmode : p.modes.filtering = true := by rw [hmodes]; exact hfiltering
    have hmodeAfter : ∀ acts, (p.acted acts).modes.filtering = true :=
      fun acts => (congrArg Modes.filtering modes_acted).trans hmode
    have hnone : ∀ inode, ¬ p.watched.Holds inode := by
      intro inode h
      rw [hwatched] at h
      simp [WatchSet.Holds, WatchSet.new] at h
    have hiff : ∀ inode, (p.acted acts).watched.Holds inode ↔
        inode ≠ 0 ∧ Named (.ofConfig config) p acts inode := by
      intro inode
      rw [holds_acted hmode (hkept ▸ Nat.zero_le _), or_iff_right (hnone inode), hmodes]
    refine ⟨hiff, fun _ _ _ _ _ _ _ he => inodes_of_exit he, ?_, ?_⟩
    · rintro before rest inode parentInode rfl h
      rw [acted_append] at hkept ⊢
      exact inScope_acted (hmodeAfter before) (hkept ▸ Nat.zero_le _) h
    · intro hfollow before s i rest e hsplit he hkind hinode parentInode
      obtain ⟨-, -, -, hretval, -, -⟩ := inodes_of_exit he
      have hnamed : Named (.ofConfig config) p acts e.event.target.inode :=
        ⟨before, _, rest, hsplit, Or.inr ⟨e, he, hretval, Or.inr ⟨hfollow, hkind, rfl⟩⟩⟩
      exact WatchSet.fst_inScope.2 (Or.inr (Or.inl ⟨hinode, (hiff _).2 ⟨hinode, hnamed⟩⟩))
  · intro hfiltering s i args retval
    have hmode : (p.acted acts).modes.filtering = false := by
      rw [modes_acted, hmodes]
      exact hfiltering
    have hdisabled : (p.acted acts).watched.enabled = false := by
      have henabled : (p.acted acts).watched.enabled = p.watched.enabled :=
        congrArg (·.2.2) settings_acted
      rw [henabled, hwatched]
      exact hfiltering
    constructor
    · rcases (p.acted acts).watched_enter s i args with h | h
      · exact h
      · exact h.trans (watched_inScope_of_disabled hdisabled _ _)
    · cases he : ((p.acted acts).exit s i retval).1 with
      | some e =>
        exact (watched_exit_of_some he).trans
          (watched_registerFollowup_of_not fun h => absurd (hmode.symm.trans h) (by decide))
      | none => exact watched_exit_of_none he

/-- An entry that is watched is renamed. The inode that its target has at the return is watched. -/
theorem holds_named_renamed :
    ∃ p, Probe.new {} 1 = .ok p ∧
      let acts := [.call (.watch 3), .call (.enter plain {} (.rename ⟨2⟩ ⟨0⟩ ⟨9⟩)), .ask 5 10,
        .call (.exit plain {} 0)]
      (p.acted acts).watched.Holds 10 ∧ ((p.acted acts).watched.inScope 5 10).1 = true := by
  obtain ⟨p, hnew⟩ : ∃ p, Probe.new {} 1 = .ok p := ⟨_, rfl⟩
  refine ⟨p, hnew, ?_⟩
  intro acts
  have hheld : (p.after [.watch 3]).watched.Holds 3 :=
    (((holds_named hnew [.call (.watch 3)]).1 rfl
      (evictions_acted_of_new hnew rfl (by decide))).holds_iff 3).2
        ⟨by decide, [], _, [], rfl, Or.inl rfl⟩
  have haccepts : (p.after [.watch 3]).Accepts plain {} (.rename ⟨2⟩ ⟨0⟩ ⟨9⟩) := by
    refine ⟨?_, rfl, Or.inl (Or.inr (Or.inl ⟨by decide, hheld⟩))⟩
    rw [modes_after, (fields_of_new hnew).1]
    decide
  have houtstanding : p.Outstanding [.watch 3, .enter plain {} (.rename ⟨2⟩ ⟨0⟩ ⟨9⟩)]
      (Invocation.caller {}).thread plain {} (.rename ⟨2⟩ ⟨0⟩ ⟨9⟩) :=
    ⟨[.watch 3], [], rfl, rfl, haccepts, id⟩
  have hmode : p.modes.resolution = p.resolver.mode := by rw [eq_of_new hnew]; rfl
  have hparked := peek?_of_outstanding hmode houtstanding
  -- the question in between leaves the call in flight alone
  have hcall : (p.acted [.call (.watch 3), .call (.enter plain {} (.rename ⟨2⟩ ⟨0⟩ ⟨9⟩)),
      .ask 5 10]).pending.peek? (Invocation.caller {}).threadKey = _ := hparked
  have hreturn : ∃ e : Emission, _ = some e ∧ e.event.Reports _ 0 :=
    exit_of_some (s := plain) hcall
  obtain ⟨e, he, hreports⟩ := hreturn
  have hkind : e.event.kind = .rename := hreports.kind_eq.trans kind_parked
  obtain ⟨call, hcall', -, hretval, -, htarget⟩ := inodes_of_exit he
  obtain rfl := Option.some.inj (hcall.symm.trans hcall')
  have hinode : e.event.target.inode = 10 := by
    rw [htarget hkind, targetEntry_parked]
    rfl
  have hnamed : Named (.ofConfig {}) p acts 10 :=
    ⟨[_, _, _], .exit plain {} 0, [], rfl, Or.inr ⟨e, he, hretval, Or.inr ⟨rfl, hkind, hinode⟩⟩⟩
  have hall : p.HoldsNamed {} acts :=
    (holds_named hnew acts).1 rfl (evictions_acted_of_new hnew rfl (by decide))
  have hheldAfter := (hall.holds_iff 10).2 ⟨by decide, hnamed⟩
  exact ⟨hheldAfter, WatchSet.fst_inScope.2 (Or.inr (Or.inr ⟨by decide, hheldAfter⟩))⟩

end Probe

end FsTrace
