import FsTrace.Proofs.TracedTrees

/-!
# Calls on a traced tree

What the probe keeps of an operation in flight, and what stays true of it until it returns.

* `TracedCall.pending`: the call that is kept, and `TracedCall.sourceKey`: where the path of its
  source is found;
* `TracedCall.complete_pending_of_ne`, `TracedCall.complete_pending_of_rename`: the walks of its
  return;
* `TracedCall.Current`: the directories of the start are as they were, the source has kept its name,
  and is stored if it was renamed. Changes of the tree keep this (`TracedCall.Current.change`);
* `TracedCall.Current.tells_of_ne`, `TracedCall.Current.tells_of_rename`: what a return stores leads
  along the paths of the source and of the target.
-/

namespace FsTrace

theorem Tree.mountOf_of {t : Tree} {d : Handle} {node : Node} (hnode : t.nodes[d]? = some node) :
    t.accessor.mountOf d = t.mount := by
  simp [Accessor.mountOf, Tree.accessor, hnode]

theorem Tree.Sound.mountOf_eq {t : Tree} {dirs : Finset Handle} {d : Handle} (h : t.Sound dirs)
    (hd : d ∈ dirs) : t.accessor.mountOf d = t.mount := by
  obtain ⟨node, hnode, -⟩ := h.exists_of_mem d hd
  exact Tree.mountOf_of hnode

/-! ### What is captured -/

namespace Arguments

variable {a : Accessor} {caller : Caller} {args : Arguments} {t : Tree} {dirs : Finset Handle}

theorem srcEntry_captured (a : Accessor) (caller : Caller) (args : Arguments) :
    (args.captured a caller).srcEntry = args.source := by
  cases args <;> rfl

theorem inode_captured (h : args.kind ≠ .makeDir) :
    (args.captured a caller).event.src.inode = a.inodeOf args.source := by
  cases args with
  | makeDir dir entry mode => exact absurd rfl h
  | _ => rfl

theorem mount_captured (h : t.Sound dirs) (hmeets : args.Meets t dirs) :
    (args.captured t.accessor caller).event.src.mount = t.mount := by
  cases args with
  | openFile entry mount => exact hmeets.2
  | makeDir dir entry mode => exact h.mountOf_eq hmeets.1
  | link source targetDir target => exact hmeets.elim
  | rename source targetDir target =>
    obtain ⟨-, ⟨node, hnode⟩, -⟩ := hmeets
    exact Tree.mountOf_of hnode
  | unlink dir entry => exact h.mountOf_eq hmeets.1
  | removeDir dir entry => exact h.mountOf_eq hmeets.1
  | modify entry mask =>
    obtain ⟨node, hnode⟩ := hmeets
    exact Tree.mountOf_of hnode
  | setAttr entry valid mode =>
    obtain ⟨node, hnode⟩ := hmeets
    exact Tree.mountOf_of hnode

theorem Meets.exists_source (h : args.Meets t dirs) :
    ∃ node, t.nodes[args.source]? = some node := by
  cases args with
  | openFile entry mount => exact h.1
  | link source targetDir target => exact h.elim
  | rename source targetDir target => exact h.2.1
  | makeDir dir entry mode => exact h.2
  | unlink dir entry => exact h.2
  | removeDir dir entry => exact h.2
  | modify entry mask => exact h
  | setAttr entry valid mode => exact h

theorem Meets.exists_replaced (h : args.Meets t dirs) {d : Handle} (hd : args.replaced? = some d) :
    ∃ node, t.nodes[d]? = some node := by
  cases args with
  | rename source targetDir target => exact Option.some.inj hd ▸ h.2.2
  | _ => cases hd

theorem Meets.hasTarget_iff (h : args.Meets t dirs) :
    args.kind.hasTarget = true ↔ args.kind = .rename := by
  cases args with
  | link source targetDir target => exact h.elim
  | _ => simp [kind, Kind.hasTarget]

theorem exists_rename (h : args.kind = .rename) :
    ∃ source targetDir target, args = .rename source targetDir target := by
  cases args with
  | rename source targetDir target => exact ⟨source, targetDir, target, rfl⟩
  | _ => cases h

theorem source_of_removed? {d : Handle} (h : args.removed? = some d) : args.source = d := by
  cases args with
  | unlink dir entry => exact Option.some.inj h
  | removeDir dir entry => exact Option.some.inj h
  | _ => cases h

theorem exists_of_replaced? {target : Handle} (h : args.replaced? = some target) :
    ∃ source targetDir, args = .rename source targetDir target := by
  cases args with
  | rename source targetDir target' => exact ⟨source, targetDir, Option.some.inj h ▸ rfl⟩
  | _ => cases h

theorem replaced?_of_ne (h : args.kind ≠ .rename) : args.replaced? = none := by
  cases args with
  | rename source targetDir target => exact absurd rfl h
  | _ => rfl

end Arguments

/-! ### What is kept until the return -/

namespace TracedCall

variable {c : TracedCall} {a : Accessor} {retval : Int64} {drawn : Nat → DrawnKey} {log : WalkLog}

/-- The call that is kept until the operation returns. -/
def pending (c : TracedCall) : PendingCall :=
  parked .fragmentStore ⟨.still c.start.accessor, c.drawn⟩ c.invocation c.args

/-- The key under which the source of a rename is stored. -/
def standIn (c : TracedCall) : Location := ⟨(c.drawn 0).key.toNat, c.start.mount⟩

/-- The location from which the path of the source is found. A new directory gets its inode from the
operation. -/
def sourceKey (c : TracedCall) (a : Accessor) : Location :=
  if c.args.kind = .rename then c.standIn
  else if c.args.kind = .makeDir then ⟨a.inodeOf c.args.source, c.start.mount⟩
  else c.start.locate c.args.source

theorem kind_pending : c.pending.event.kind = c.args.kind := Probe.kind_parked

theorem kind_readOutcome_pending :
    (Probe.readOutcome a retval c.pending).event.kind = c.args.kind :=
  (Probe.reports_readOutcome a).kind_eq.trans kind_pending

theorem srcEntry_pending : c.pending.srcEntry = c.args.source :=
  Probe.srcEntry_parked.trans (Arguments.srcEntry_captured _ _ _)

theorem src_mount_pending (h : c.start.Sound c.dirs) (hmeets : c.args.Meets c.start c.dirs) :
    c.pending.event.src.mount = c.start.mount := by
  have hkeeps : c.pending.Keeps _ := Probe.keeps_parked _
  obtain ⟨pathKey, hevent⟩ := hkeeps
  rw [hevent]
  exact Arguments.mount_captured h hmeets

theorem inode_readOutcome_makeDir {call : PendingCall} (h : call.event.kind = .makeDir) :
    (Probe.readOutcome a retval call).event.src.inode = a.inodeOf call.srcEntry := by
  unfold Probe.readOutcome
  simp only [h]

/-- The record tells where the path of the source is found. -/
theorem srcLocation_readOutcome (h : c.start.Sound c.dirs) (hmeets : c.args.Meets c.start c.dirs) :
    (Probe.readOutcome a retval c.pending).event.srcLocation = c.sourceKey a := by
  obtain ⟨hkey, -⟩ := Probe.paths_readOutcome a retval c.pending
  have hreports : (Probe.readOutcome a retval c.pending).event.Reports c.pending.event retval :=
    Probe.reports_readOutcome a
  have hmount := hreports.mount_eq.trans (src_mount_pending h hmeets)
  rw [Event.srcLocation, hkey, hmount, sourceKey]
  by_cases hrename : c.args.kind = .rename
  · have hpathKey : c.pending.event.src.pathKey = (c.drawn 0).key :=
      Probe.src_pathKey_parked.trans (if_pos ⟨hrename, rfl⟩)
    rw [hpathKey, if_pos (c.drawn 0).ne_zero, if_pos hrename, standIn]
  · have hpathKey : c.pending.event.src.pathKey = 0 :=
      Probe.src_pathKey_parked.trans (if_neg fun h => hrename h.1)
    have hpending : c.pending = c.args.captured c.start.accessor c.invocation.caller :=
      Probe.parked_of_ne hrename
    rw [hpathKey, if_neg (not_not.2 rfl), if_neg hrename]
    by_cases hmake : c.args.kind = .makeDir
    · rw [if_pos hmake, inode_readOutcome_makeDir (kind_pending.trans hmake), srcEntry_pending]
    · rw [if_neg hmake, hreports.inode_eq (kind_pending.trans_ne hmake), hpending,
        Arguments.inode_captured hmake]
      rfl

/-- And that of the target of a rename. -/
theorem targetLocation_readOutcome {source targetDir target : Handle}
    (hargs : c.args = .rename source targetDir target) :
    (Probe.readOutcome a retval c.pending).event.targetLocation =
      ⟨a.inodeOf target, a.mountOf targetDir⟩ := by
  have hkind : c.args.kind = .rename := by rw [hargs]; rfl
  have hpending : c.pending = (c.args.captured c.start.accessor c.invocation.caller).bring
      (.still c.start.accessor) (c.drawn 0) .fragmentStore := Probe.parked_of_rename hkind
  have hcall : ∀ call : PendingCall, call.event.kind = .rename →
      (Probe.readOutcome a retval call).event.targetLocation =
        ⟨a.inodeOf call.targetEntry, a.mountOf call.targetDir⟩ := by
    intro call hkind
    unfold Probe.readOutcome
    simp only [hkind]
    rfl
  rw [hcall _ (kind_pending.trans hkind), hpending, hargs]
  rfl

/-! ### The walks of a return -/

theorem complete_pending_of_ne (h : c.start.Sound c.dirs) (hmeets : c.args.Meets c.start c.dirs)
    (hkind : c.args.kind ≠ .rename) :
    log.complete ⟨.still a, drawn⟩ (Probe.readOutcome a retval c.pending) =
      log.walk (.still a) c.args.source (c.sourceKey a) := by
  have hpath : (Probe.readOutcome a retval c.pending).srcPath = .unresolved :=
    (Probe.srcPath_readOutcome a).trans (Probe.srcPath_parked_of_ne hkind)
  have htarget : c.args.kind.hasTarget = false :=
    Bool.eq_false_iff.2 (mt hmeets.hasTarget_iff.1 hkind)
  simp only [WalkLog.complete, hpath, if_true, kind_readOutcome_pending, hkind, if_false, htarget,
    Bool.false_eq_true, Probe.srcEntry_readOutcome, srcEntry_pending,
    srcLocation_readOutcome h hmeets]

theorem complete_pending_of_rename {source targetDir target : Handle}
    (hargs : c.args = .rename source targetDir target) :
    let leaf := (Probe.readOutcome a retval c.pending).event.targetLocation
    log.complete ⟨.still a, drawn⟩ (Probe.readOutcome a retval c.pending) =
      (log.forget leaf).walk (.still a) target leaf := by
  have hkind : c.args.kind = .rename := by rw [hargs]; rfl
  have hpath : (Probe.readOutcome a retval c.pending).srcPath ≠ .unresolved := by
    have hparked : c.pending = _ := Probe.parked_of_rename hkind
    rw [Probe.srcPath_readOutcome, hparked]
    exact PathRef.noConfusion
  have hentry : (Probe.readOutcome a retval c.pending).targetEntry = target := by
    rw [Probe.targetEntry_readOutcome, pending, Probe.targetEntry_parked, hargs]
    rfl
  have htarget : Kind.rename.hasTarget = true := rfl
  simp only [WalkLog.complete, hpath, if_false, kind_readOutcome_pending, hkind, if_true, htarget,
    hentry, View.later_still]

/-! ### While an operation is in flight -/

/-- What stays true of an operation in flight, while the tree changes: the directories of its start
are as they were. The path of a source that is renamed is stored. Any other source keeps its name,
and may be stored when the operation returns. -/
structure Current (c : TracedCall) (t : Tree) (dirs : Finset Handle) (hidden : Set Handle)
    (used : Finset Nat) (s : FragmentStore) : Prop where
  sound : c.start.Sound c.dirs
  meets : c.args.Meets c.start c.dirs
  mount_eq : t.mount = c.start.mount
  nextHandle_le : c.start.nextHandle ≤ t.nextHandle
  same : ∀ p ∈ c.dirs, c.args.removed? ≠ some p → p ∈ dirs ∧ t.nodes[p]? = c.start.nodes[p]?
  brought : c.args.kind = .rename →
    c.start.Describes s c.standIn c.args.source ∧ c.standIn.inode ∈ used
  unmoved : c.args.kind ≠ .rename → ∀ node, t.nodes[c.args.source]? = some node →
    ∃ node₀, c.start.nodes[c.args.source]? = some node₀ ∧ node.name = node₀.name ∧
      node.parent = node₀.parent
  admits : c.args.kind ≠ .rename → c.args.kind ≠ .makeDir →
    c.start.accessor.inodeOf c.args.source ≠ 0 →
      t.Admits hidden used s (c.start.locate c.args.source) c.args.source ∧
        (t.accessor.inodeOf c.args.source ≠ 0 ∨
          c.done = true ∧ c.args.removed? = some c.args.source)

namespace Current

variable {t t' : Tree} {dirs dirs' : Finset Handle} {hidden hidden' : Set Handle}
  {used : Finset Nat} {store : FragmentStore} {d : Handle} {node : Node}

/-- When an operation starts. -/
theorem start (h : c.start.Sound c.dirs) (hmeets : c.args.Meets c.start c.dirs)
    (hbrought : c.args.kind = .rename →
      c.start.Describes store c.standIn c.args.source ∧ c.standIn.inode ∈ used)
    (hadmits : c.args.kind ≠ .rename → c.start.accessor.inodeOf c.args.source ≠ 0 →
      c.start.Admits hidden used store (c.start.locate c.args.source) c.args.source) :
    c.Current c.start c.dirs hidden used store where
  sound := h
  meets := hmeets
  mount_eq := rfl
  nextHandle_le := le_rfl
  same _ hp _ := ⟨hp, rfl⟩
  brought := hbrought
  unmoved _ node hnode := ⟨node, hnode, rfl, rfl⟩
  admits hrename _ hlive := ⟨hadmits hrename hlive, Or.inl hlive⟩

/-- What has to be seen of a change for it to go on. -/
theorem change (h : c.Current t dirs hidden used store)
    (hup : t.UpToDate dirs hidden used store none) (hchange : t.Changes t' dirs' hidden' used)
    (hhidden : hidden ⊆ hidden') (hdirs : ∀ p ∈ dirs, c.args.removed? ≠ some p → p ∈ dirs')
    (hsource : c.args.kind ≠ .rename → ∀ node', t'.nodes[c.args.source]? = some node' →
      ∃ node, t.nodes[c.args.source]? = some node ∧ node'.name = node.name ∧
        node'.parent = node.parent) (done : Bool)
    (hheld : c.args.kind ≠ .rename → c.args.kind ≠ .makeDir →
      (∃ node, t.nodes[c.args.source]? = some node) →
      (t.accessor.inodeOf c.args.source ≠ 0 ∨
        c.done = true ∧ c.args.removed? = some c.args.source) →
      (∃ node', t'.nodes[c.args.source]? = some node') ∧
        (t'.accessor.inodeOf c.args.source ≠ 0 ∨
          done = true ∧ c.args.removed? = some c.args.source)) :
    { c with done }.Current t' dirs' hidden' used store where
  sound := h.sound
  meets := h.meets
  mount_eq := hchange.mount_eq.trans h.mount_eq
  nextHandle_le := h.nextHandle_le.trans hchange.nextHandle_le
  same p hp hkept := by
    obtain ⟨hmem, hnodes⟩ := h.same p hp hkept
    have hmem' := hdirs p hmem hkept
    exact ⟨hmem', (hchange.nodes_dir hup.sound hmem hmem').trans hnodes⟩
  brought := h.brought
  unmoved hrename node' hnode' := by
    obtain ⟨node, hnode, hname, hparent⟩ := hsource hrename node' hnode'
    obtain ⟨node₀, hnode₀, hname₀, hparent₀⟩ := h.unmoved hrename node hnode
    exact ⟨node₀, hnode₀, hname.trans hname₀, hparent.trans hparent₀⟩
  admits hrename hmake hlive := by
    obtain ⟨hadmits, hheld'⟩ := h.admits hrename hmake hlive
    obtain ⟨⟨node', hnode'⟩, hheld'⟩ := hheld hrename hmake hadmits.exists_node hheld'
    obtain ⟨node, hnode, hname, hparent⟩ := hsource hrename node' hnode'
    exact ⟨hup.admits_of_changes hchange hhidden hadmits hnode hnode' hname hparent, hheld'⟩

/-- An entry is added. -/
theorem create (h : c.Current t dirs hidden used store)
    (hup : t.UpToDate dirs hidden used store none) (hchange : t.Changes t' dirs' hidden used)
    (hput : t.Puts ⟨t.nextHandle⟩ node t') (hdirs : dirs ⊆ dirs') :
    c.Current t' dirs' hidden used store := by
  obtain ⟨node₀, hnode₀⟩ := h.meets.exists_source
  have hne : c.args.source ≠ ⟨t.nextHandle⟩ := by
    intro heq
    have hlt := (h.sound.id_lt _ _ hnode₀).trans_le h.nextHandle_le
    rw [heq] at hlt
    exact lt_irrefl _ hlt
  have hnodes : t'.nodes[c.args.source]? = t.nodes[c.args.source]? := by
    rw [hput.nodes_eq, if_neg hne]
  refine h.change hup hchange subset_rfl (fun p hp _ => hdirs hp)
    (fun _ node' hnode' => ⟨node', hnodes ▸ hnode', rfl, rfl⟩) c.done fun _ _ hnode hheld => ?_
  rw [Tree.inodeOf_congr hnodes, hnodes]
  exact ⟨hnode, hheld⟩

/-- An entry without an inode is forgotten, but not one that the operation has removed. -/
theorem forget (h : c.Current t dirs hidden used store)
    (hup : t.UpToDate dirs hidden used store none) (hzero : t.accessor.inodeOf d = 0)
    (hnot : c.done = true → c.args.removed? ≠ some d) :
    c.Current (t.forget d) dirs hidden used store := by
  refine h.change hup (Tree.changes_forget hup.sound hzero hup.shown) subset_rfl (fun p hp _ => hp)
    (fun _ node' hnode' => ?_) c.done fun _ _ hnode hheld => ?_
  · rw [Tree.nodes_forget] at hnode'
    split at hnode'
    · cases hnode'
    · exact ⟨node', hnode', rfl, rfl⟩
  · have hne : c.args.source ≠ d := by
      rintro rfl
      rcases hheld with hlive | ⟨hdone, hremoved⟩
      · exact hlive hzero
      · exact hnot hdone hremoved
    have hnodes : (t.forget d).nodes[c.args.source]? = t.nodes[c.args.source]? := by
      rw [Tree.nodes_forget, if_neg hne]
    rw [Tree.inodeOf_congr hnodes, hnodes]
    exact ⟨hnode, hheld⟩

/-- The operation succeeds. -/
theorem effect (h : c.Current t dirs hidden used store)
    (hup : t.UpToDate dirs hidden used store none) (hsucceeds : c.args.Succeeds t dirs)
    (hfresh : c.args.kind = .makeDir → t.nextInode ∉ used)
    (hhidden : hidden ⊆ {d | c.args.replaced? = some d}) :
    { c with done := true }.Current (c.args.effect.apply t) (c.args.dirsAfter dirs)
      {d | c.args.replaced? = some d} used store := by
  refine h.change hup (hsucceeds.changes hup.sound hfresh) hhidden
    (fun p hp hkept => Arguments.mem_dirsAfter hp hkept) (fun hrename node' hnode' => ?_) true
    fun hrename hmake _ _ => ?_
  · obtain ⟨node, inode, hnode, hput⟩ := hsucceeds.puts hup.sound hrename
    rw [hput.nodes_eq, if_pos rfl] at hnode'
    obtain rfl := Option.some.inj hnode'
    exact ⟨node, hnode, rfl, rfl⟩
  · obtain ⟨node, inode, hnode, hput⟩ := hsucceeds.puts hup.sound hrename
    refine ⟨⟨_, (hput.nodes_eq _).trans (if_pos rfl)⟩, Or.inr ⟨rfl, ?_⟩⟩
    exact hsucceeds.removed?_eq hrename hmake

/-! ### When it returns -/

/-- The directories above the source are as they were. -/
theorem same_above (h : c.Current t dirs hidden used store) :
    ∀ p ∈ c.dirs, p ≠ c.args.source → p ∈ dirs ∧ t.nodes[p]? = c.start.nodes[p]? :=
  fun p hp hne => h.same p hp fun hremoved => hne (Arguments.source_of_removed? hremoved).symm

/-- What is stored of the source is what would have been when the operation started. -/
theorem describes_start {key : Location} (h : c.Current t dirs hidden used store)
    (hkind : c.args.kind ≠ .rename) {store' : FragmentStore}
    (hnode : t.nodes[c.args.source]? = some node)
    (hstored : t.Describes store' key c.args.source) :
    c.start.Describes store' key c.args.source := by
  obtain ⟨node₀, hnode₀, hname, hparent⟩ := h.unmoved hkind node hnode
  have hlocate : c.args.source ≠ Tree.root →
      t.locate node.parent = c.start.locate node₀.parent := by
    intro hroot
    have hlt := h.sound.parent_lt _ node₀ hnode₀ hroot
    obtain ⟨-, hnodes⟩ := h.same_above _ (h.sound.parent_mem _ node₀ hnode₀) fun heq =>
      lt_irrefl _ (heq ▸ hlt)
    rw [hparent, Tree.locate, Tree.locate, Tree.inodeOf_congr hnodes, h.mount_eq]
  have hfragment : t.fragment c.args.source = c.start.fragment c.args.source := by
    rw [Tree.fragment_of hnode, Tree.fragment_of hnode₀, hname]
    by_cases hroot : c.args.source = Tree.root
    · rw [if_pos hroot, if_pos hroot]
    · rw [if_neg hroot, if_neg hroot, hlocate hroot]
  refine ⟨hfragment ▸ hstored.stored, fun hroot => ?_⟩
  have hdir := hstored.parent_stored hroot
  rwa [Tree.parentOf_of hnode, hlocate hroot, ← Tree.parentOf_of hnode₀] at hdir

/-- The target of a rename is found from its own location. -/
theorem targetLocation_eq {source targetDir target : Handle}
    (h : c.Current t dirs hidden used store) (hsound : t.Sound dirs)
    (hargs : c.args = .rename source targetDir target) :
    (Probe.readOutcome t.accessor retval c.pending).event.targetLocation = t.locate target := by
  have hmeets := h.meets
  rw [hargs] at hmeets
  have hkept : c.args.removed? ≠ some targetDir := by simp [hargs, Arguments.removed?]
  have hmount := hsound.mountOf_eq (h.same targetDir hmeets.1 hkept).1
  rw [targetLocation_readOutcome hargs, hmount, Tree.locate]

/-- A source that is not renamed may be stored when the operation returns. -/
theorem admits_source (h : c.Current t dirs ∅ used store)
    (hup : t.UpToDate dirs ∅ used store none) (hkind : c.args.kind ≠ .rename)
    (hlive : (c.sourceKey t.accessor).inode ≠ 0) :
    t.Admits ∅ used store (c.sourceKey t.accessor) c.args.source := by
  rw [sourceKey, if_neg hkind] at hlive ⊢
  by_cases hmake : c.args.kind = .makeDir
  · rw [if_pos hmake] at hlive ⊢
    rw [← h.mount_eq]
    exact hup.admits_own hlive id
  · rw [if_neg hmake] at hlive ⊢
    exact (h.admits hkind hmake hlive).1

/-- The return of an operation other than a rename stores the path of its source. -/
theorem tells_of_ne (h : c.Current t dirs ∅ used store)
    (hup : t.UpToDate dirs ∅ used store none) (hkind : c.args.kind ≠ .rename)
    (hkept : (store.resolve (.still t.accessor) c.args.source
      (c.sourceKey t.accessor)).2.table.evictions ≤ store.table.evictions)
    (hwhole : (store.resolve (.still t.accessor) c.args.source
      (c.sourceKey t.accessor)).1 = false) :
    let store' := (store.resolve (.still t.accessor) c.args.source (c.sourceKey t.accessor)).2
    t.UpToDate dirs ∅ used store' none ∧
      c.start.Tells store'.table (c.sourceKey t.accessor) c.args.source := by
  have hawaited : t.UpToDate dirs ∅ used store (some (c.sourceKey t.accessor)) := hup.mono
  obtain ⟨hup', hdescribes, -⟩ :=
    hawaited.resolve_or_skip (h.admits_source hup hkind) hkept hwhole
  refine ⟨hup', hup'.tells h.sound h.same_above h.mount_eq fun hlive => ?_⟩
  obtain ⟨node, hnode⟩ := (h.admits_source hup hkind hlive).exists_node
  exact ⟨h.meets.exists_source, h.describes_start hkind hnode (hdescribes hlive)⟩

/-- The source of a rename stays stored, as long as the keys that were drawn and all that is stored
at an inode are left alone. -/
theorem describes_standIn (h : c.Current t dirs hidden used store) (hkind : c.args.kind = .rename)
    {store' : FragmentStore}
    (hsame : ∀ k, k.inode ∈ used → store'.table.peek? k = store.table.peek? k)
    (hkeeps : ∀ k, k.inode ≠ 0 → (store.table.peek? k).isSome → (store'.table.peek? k).isSome) :
    c.start.Describes store' c.standIn c.args.source := by
  obtain ⟨hbrought, hused⟩ := h.brought hkind
  refine ⟨(hsame _ hused).trans hbrought.stored, fun hroot =>
    hkeeps _ ?_ (hbrought.parent_stored hroot)⟩
  obtain ⟨node, hnode⟩ := h.meets.exists_source
  exact h.sound.inodeOf_ne_zero (Tree.parentOf_of hnode ▸ h.sound.parent_mem _ node hnode)

/-- The return of a rename stores the path of its target. That of its source stays stored. -/
theorem tells_of_rename {source targetDir target : Handle}
    (hargs : c.args = .rename source targetDir target) (h : c.Current t dirs hidden used store)
    (hup : t.UpToDate dirs hidden used store none) (hhidden : ∀ e ∈ hidden, e = target)
    (hkept : ((store.forget (t.locate target)).resolve (.still t.accessor) target
      (t.locate target)).2.table.evictions ≤ store.table.evictions)
    (hwhole : ((store.forget (t.locate target)).resolve (.still t.accessor) target
      (t.locate target)).1 = false) :
    let store' := ((store.forget (t.locate target)).resolve (.still t.accessor) target
      (t.locate target)).2
    t.UpToDate dirs ∅ used store' none ∧ c.start.Tells store'.table c.standIn source ∧
      t.Tells store'.table (t.locate target) target := by
  have hkind : c.args.kind = .rename := by rw [hargs]; rfl
  have hsource : c.args.source = source := by rw [hargs]; rfl
  have hforgotten : t.UpToDate dirs ∅ used (store.forget (t.locate target))
      (some (t.locate target)) := hup.forget rfl fun e he => hhidden e he ▸ rfl
  have hforget : (store.forget (t.locate target)).table.evictions = store.table.evictions :=
    FragmentStore.evictions_forget
  rw [← hforget] at hkept
  obtain ⟨hup', hdescribes, hsame⟩ :=
    hforgotten.resolve_or_skip (fun hlive => hforgotten.admits_forgotten hlive) hkept hwhole
  intro store'
  have hbrought : c.start.Describes store' c.standIn c.args.source := by
    refine h.describes_standIn hkind (fun k hused => ?_) fun k hne hstored => ?_
    · -- a key that was drawn is not the location of the target
      obtain ⟨hne, hrange⟩ := hup.apart _ hused
      have hkey : t.locate target ≠ k := by
        rintro rfl
        exact hrange (hup.sound.inodeOf_mem hne)
      rw [hsame k hkey.symm hused, FragmentStore.peek?_forget, if_neg hkey]
    · by_cases hk : t.locate target = k
      · subst hk
        exact Option.isSome_of_mem (hdescribes hne).stored
      · refine FragmentStore.isSome_resolve hkept ?_
        rwa [FragmentStore.peek?_forget, if_neg hk]
  refine ⟨hup', hsource ▸ ?_, ?_⟩
  · exact hup'.tells h.sound h.same_above h.mount_eq fun _ => ⟨h.meets.exists_source, hbrought⟩
  · refine hup'.tells hup'.sound (fun p hp _ => ⟨hp, rfl⟩) rfl fun hlive => ?_
    obtain ⟨node, hnode, -⟩ := Tree.exists_node hlive
    exact ⟨⟨node, hnode⟩, hdescribes hlive⟩

end Current

end TracedCall

end FsTrace
