import FsTrace.Proofs.CurrentFragments
import FsTrace.Proofs.FragmentCalls
import FsTrace.Simulation

/-!
# Trees that are traced while they change

A tree with the probe that is told of the operations on it, one after another. Between the start and
the return of an operation the tree changes by what the operation does, if it succeeds. All along,
entries are created without the probe being told, and entries without an inode are forgotten.

* `Arguments.effect`, `Arguments.Succeeds`: what an operation does to the tree, and when it can
  (`Arguments.Succeeds.changes`);
* `TracedTree`, its `Move`s, `TracedTree.Permits`, and `TracedTree.Runs`: the moves of a run;
* `TracedTree.Tracing`: the probe traces every kind, without filtering and in fragment mode, at any
  point of a run (`TracedTree.Tracing.after`).
-/

namespace FsTrace

/-! ### What operations do -/

theorem Effect.size_apply (t : Tree) (effect : Effect) : (effect.apply t).size = t.size := by
  cases effect with
  | nothing => rfl
  | instantiate entry => exact t.size_instantiate entry
  | link existing target => exact t.size_link existing target
  | move source target => exact (Tree.size_unlink _ _).trans (t.size_link source target)
  | unlink entry => exact t.size_unlink entry

namespace Arguments

/-- The entry that an operation is about. -/
def source : Arguments → Handle
  | openFile entry _ | makeDir _ entry _ | unlink _ entry | removeDir _ entry | modify entry _
  | setAttr entry _ _ => entry
  | link source _ _ | rename source _ _ => source

/-- What an operation does to the tree when it succeeds. -/
def effect : Arguments → Effect
  | makeDir _ entry _ => .instantiate entry
  | link source _ target => .link source target
  | rename source _ target => .move source target
  | unlink _ entry | removeDir _ entry => .unlink entry
  | openFile .. | modify .. | setAttr .. => .nothing

/-- The live directories when it has succeeded. -/
def dirsAfter (dirs : Finset Handle) : Arguments → Finset Handle
  | makeDir _ entry _ => insert entry dirs
  | removeDir _ entry => dirs.erase entry
  | _ => dirs

/-- The entry that an operation removes. -/
def removed? : Arguments → Option Handle
  | unlink _ entry | removeDir _ entry => some entry
  | _ => none

/-- The entry that a renamed file takes the place of. -/
def replaced? : Arguments → Option Handle
  | rename _ _ target => some target
  | _ => none

/-- What an operation is told of is there: its entries, and live directories. No links are made. -/
def Meets (t : Tree) (dirs : Finset Handle) : Arguments → Prop
  | openFile entry mount => (∃ node, t.nodes[entry]? = some node) ∧ mount = t.mount
  | makeDir dir entry _ | unlink dir entry | removeDir dir entry =>
    dir ∈ dirs ∧ ∃ node, t.nodes[entry]? = some node
  | modify entry _ | setAttr entry _ _ => ∃ node, t.nodes[entry]? = some node
  | rename source targetDir target =>
    targetDir ∈ dirs ∧ (∃ node, t.nodes[source]? = some node) ∧ ∃ node, t.nodes[target]? = some node
  | link .. => False

/-- An operation that changes the tree can do so. A directory that is removed is empty, and only
files are renamed. -/
def Succeeds (t : Tree) (dirs : Finset Handle) : Arguments → Prop
  | makeDir _ entry _ => ∃ node, t.nodes[entry]? = some node ∧ node.inode = 0
  | unlink _ entry => t.accessor.inodeOf entry ≠ 0 ∧ entry ∉ dirs
  | removeDir _ entry => entry ∈ dirs ∧ entry ≠ Tree.root ∧
    ∀ (e : Handle) (node : Node), t.nodes[e]? = some node → e ≠ entry → node.parent ≠ entry
  | rename source _ target => t.accessor.inodeOf source ≠ 0 ∧ source ∉ dirs ∧
    (∃ node, t.nodes[target]? = some node) ∧ target ∉ dirs ∧ target ≠ source
  | link .. | openFile .. | modify .. | setAttr .. => False

variable {args : Arguments} {t : Tree} {dirs : Finset Handle} {p : Handle} {used : Finset Nat}

theorem mem_dirsAfter (hp : p ∈ dirs) (hkept : args.removed? ≠ some p) :
    p ∈ args.dirsAfter dirs := by
  cases args with
  | makeDir dir entry mode => exact Finset.mem_insert_of_mem hp
  | removeDir dir entry => exact Finset.mem_erase.2 ⟨fun heq => hkept (congrArg some heq.symm), hp⟩
  | _ => exact hp

/-- What an operation does to a sound tree. Only a rename hides an entry. -/
theorem Succeeds.changes (h : args.Succeeds t dirs) (hsound : t.Sound dirs)
    (hfresh : args.kind = .makeDir → t.nextInode ∉ used) :
    t.Changes (args.effect.apply t) (args.dirsAfter dirs) {d | args.replaced? = some d} used := by
  cases args with
  | makeDir dir entry mode =>
    obtain ⟨node, hnode, hzero⟩ := h
    exact Tree.changes_instantiate hsound hnode hzero (fun _ _ hmem => by cases hmem) (hfresh rfl)
  | unlink dir entry =>
    obtain ⟨hlive, hfile⟩ := h
    obtain ⟨node, hnode, -⟩ := Tree.exists_node hlive
    exact Tree.changes_unlink hsound hnode hfile fun _ _ hmem => by cases hmem
  | removeDir dir entry =>
    obtain ⟨hmem, hroot, hempty⟩ := h
    exact Tree.changes_removeDir hsound hmem hroot hempty fun _ _ hmem => by cases hmem
  | rename source targetDir target =>
    obtain ⟨hlive, hfile, ⟨other, htarget⟩, hfile', hne⟩ := h
    obtain ⟨node, hsource, hinode⟩ := Tree.exists_node hlive
    refine Tree.changes_move hsound hsource htarget hfile hfile' (hinode.trans_ne hlive) hne rfl ?_
    intro e he hmem
    exact hfile' (Option.some.inj hmem ▸ he)
  | _ => exact h.elim

/-- No operation but a rename changes more of its entry than the inode. -/
theorem Succeeds.puts (h : args.Succeeds t dirs) (hsound : t.Sound dirs)
    (hkind : args.kind ≠ .rename) :
    ∃ node inode, t.nodes[args.source]? = some node ∧
      t.Puts args.source { node with inode } (args.effect.apply t) := by
  cases args with
  | makeDir dir entry mode =>
    obtain ⟨node, hnode, -⟩ := h
    exact ⟨node, _, hnode, Tree.puts_instantiate hnode⟩
  | unlink dir entry =>
    obtain ⟨node, hnode, -⟩ := Tree.exists_node h.1
    exact ⟨node, _, hnode, Tree.puts_unlink hnode⟩
  | removeDir dir entry =>
    obtain ⟨node, hnode, -⟩ := hsound.exists_of_mem entry h.1
    exact ⟨node, _, hnode, Tree.puts_unlink hnode⟩
  | rename source targetDir target => exact absurd rfl hkind
  | _ => exact h.elim

theorem Succeeds.removed?_eq (h : args.Succeeds t dirs) (hrename : args.kind ≠ .rename)
    (hmake : args.kind ≠ .makeDir) : args.removed? = some args.source := by
  cases args with
  | unlink dir entry => rfl
  | removeDir dir entry => rfl
  | rename source targetDir target => exact absurd rfl hrename
  | makeDir dir entry mode => exact absurd rfl hmake
  | _ => exact h.elim

end Arguments

/-! ### Runs -/

/-- An operation that has started and not returned. -/
structure TracedCall where
  invocation : Invocation
  drawn : Nat → DrawnKey
  args : Arguments
  /-- The tree when the operation started, and its live directories. -/
  start : Tree
  dirs : Finset Handle
  /-- Whether the operation has changed the tree. -/
  done : Bool := false

/-- A tree, its live directories, and a probe that traces it. -/
structure TracedTree where
  tree : Tree
  dirs : Finset Handle
  probe : Probe
  call? : Option TracedCall := none
  /-- The keys that were drawn for the sources of renames. -/
  used : Finset Nat := ∅

namespace TracedTree

/-- One step of a run. -/
inductive Move
  | makeFile (dir : Handle) (name : Bytes)
  | makeDir (dir : Handle) (name : Bytes)
  | makeNegative (dir : Handle) (name : Bytes)
  | forget (d : Handle)
  | enter (i : Invocation) (drawn : Nat → DrawnKey) (args : Arguments)
  | effect
  | exit (i : Invocation) (drawn : Nat → DrawnKey) (retval : Int64)

/-- A tree that has only a root. -/
def start (mount : MountId) (device : DeviceId) (probe : Probe) : TracedTree where
  tree := .new mount device
  dirs := {Tree.root}
  probe

/-- What a handler finds around it. The tree does not change while it runs. -/
def surroundings (w : TracedTree) (drawn : Nat → DrawnKey) : Surroundings where
  view := .still w.tree.accessor
  drawn

/-- The state after one step. -/
def next (w : TracedTree) : Move → TracedTree
  | .makeFile dir name => { w with tree := (w.tree.makeFile dir name).2 }
  | .makeDir dir name =>
    { w with
      tree := (w.tree.makeDir dir name).2
      dirs := insert (w.tree.makeDir dir name).1 w.dirs }
  | .makeNegative dir name => { w with tree := (w.tree.makeNegative dir name).2 }
  | .forget d => { w with tree := w.tree.forget d }
  | .enter i drawn args =>
    { w with
      probe := w.probe.enter (w.surroundings drawn) i args
      call? := some { invocation := i, drawn, args, start := w.tree, dirs := w.dirs }
      used := if args.kind = .rename then insert (drawn 0).key.toNat w.used else w.used }
  | .effect =>
    match w.call? with
    | some call =>
      { w with
        tree := call.args.effect.apply w.tree
        dirs := call.args.dirsAfter w.dirs
        call? := some { call with done := true } }
    | none => w
  | .exit i drawn retval =>
    { w with probe := (w.probe.exit (w.surroundings drawn) i retval).2, call? := none }

/-- The state after some steps. -/
def after (w : TracedTree) (moves : List Move) : TracedTree := moves.foldl next w

/-- A step is one of a run.
* Entries are created in live directories, under good names that are not taken there.
* An entry without an inode may be forgotten, if it is not one that the call in flight has removed.
* Calls do not overlap. The key that is drawn for a rename is new, and stands for no inode.
* No inode that is handed out is a key that was drawn. -/
def Permits (w : TracedTree) : Move → Prop
  | .makeFile dir name | .makeDir dir name =>
    dir ∈ w.dirs ∧ Tree.GoodName name ∧ w.tree.lookup? dir name = none ∧ w.tree.nextInode ∉ w.used
  | .makeNegative dir name =>
    dir ∈ w.dirs ∧ Tree.GoodName name ∧ w.tree.lookup? dir name = none
  | .forget d => w.tree.accessor.inodeOf d = 0 ∧
    ∀ call, w.call? = some call → call.done = true → call.args.removed? ≠ some d
  | .enter _ drawn args => w.call? = none ∧ args.isTraced = true ∧ args.Meets w.tree w.dirs ∧
    (args.kind = .rename → (drawn 0).key.toNat ∉ w.used ∧
      ¬ (Tree.rootInode ≤ (drawn 0).key.toNat ∧ (drawn 0).key.toNat < w.tree.nextInode))
  | .effect => ∃ call, w.call? = some call ∧ call.done = false ∧
    call.args.Succeeds w.tree w.dirs ∧ (call.args.kind = .makeDir → w.tree.nextInode ∉ w.used)
  | .exit i _ _ => ∃ call, w.call? = some call ∧
    i.caller.thread = call.invocation.caller.thread

/-- All steps are those of a run. -/
def Runs (w : TracedTree) : List Move → Prop
  | [] => True
  | move :: moves => w.Permits move ∧ (w.next move).Runs moves

variable {w : TracedTree} {move : Move} {moves : List Move}

theorem after_concat (w : TracedTree) (moves : List Move) (move : Move) :
    w.after (moves ++ [move]) = (w.after moves).next move := List.foldl_concat ..

theorem runs_concat : w.Runs (moves ++ [move]) ↔ w.Runs moves ∧ (w.after moves).Permits move := by
  induction moves generalizing w with
  | nil => simp [Runs, after]
  | cons first moves ih =>
    rw [List.cons_append, Runs, ih, Runs, and_assoc]
    rfl

/-- A step adds at most one entry. -/
theorem size_next_le (w : TracedTree) (move : Move) :
    (w.next move).tree.size ≤ w.tree.size + 1 := by
  cases move with
  | makeFile dir name => exact Std.HashMap.size_insert_le
  | makeDir dir name => exact w.tree.size_makeDir_le dir name
  | makeNegative dir name => exact Std.HashMap.size_insert_le
  | forget d => exact (w.tree.size_forget_le d).trans (Nat.le_succ _)
  | enter i drawn args => exact Nat.le_succ _
  | effect =>
    rw [next]
    split
    · exact (Effect.size_apply _ _).trans_le (Nat.le_succ _)
    · exact Nat.le_succ _
  | exit i drawn retval => exact Nat.le_succ _

theorem size_after_le (w : TracedTree) (moves : List Move) :
    (w.after moves).tree.size ≤ w.tree.size + moves.length := by
  induction moves generalizing w with
  | nil => exact le_rfl
  | cons move moves ih =>
    have hrest : (w.after (move :: moves)).tree.size ≤ _ := ih (w.next move)
    have hfirst := w.size_next_le move
    rw [List.length_cons]
    omega

/-! ### Tracing -/

/-- The probe traces every kind, without filtering and in fragment mode. -/
structure Tracing (w : TracedTree) (log : WalkLog) : Prop where
  logs : w.probe.Logs log
  resolution : w.probe.modes.resolution = .fragmentStore
  contains : ∀ kind, w.probe.modes.events.contains kind = true
  enabled : w.probe.watched.enabled = false

variable {log log' : WalkLog} {i : Invocation} {drawn : Nat → DrawnKey} {args : Arguments}
  {retval : Int64}

theorem Tracing.accepts (h : w.Tracing log) (s : Surroundings) (i : Invocation)
    (htraced : args.isTraced = true) : w.probe.Accepts s i args :=
  ⟨h.contains _, htraced, Or.inl (Or.inl h.enabled)⟩

theorem Tracing.mode_eq (h : w.Tracing log) : w.probe.resolver.mode = .fragmentStore := by
  rw [h.logs.resolver_eq]
  rfl

/-- A handler that keeps the settings keeps tracing. -/
theorem Tracing.of_settings (h : w.Tracing log) {w' : TracedTree} (hlogs : w'.probe.Logs log')
    (hsettings : w'.probe.settings = w.probe.settings) : w'.Tracing log' := by
  have hmodes : w'.probe.modes = w.probe.modes := congrArg (·.1) hsettings
  have henabled : w'.probe.watched.enabled = w.probe.watched.enabled :=
    congrArg (·.2.2) hsettings
  exact ⟨hlogs, hmodes ▸ h.resolution, hmodes ▸ h.contains, henabled.trans h.enabled⟩

theorem Tracing.next (h : w.Tracing log) (move : Move) :
    ∃ log', (w.next move).Tracing log' ∧ log.Grows 2 log' := by
  have hsame : ∀ w' : TracedTree, w'.probe = w.probe → w'.Tracing log := by
    intro w' hprobe
    exact h.of_settings (hprobe ▸ h.logs) (hprobe ▸ rfl)
  have hnone : log.Grows 2 log := (WalkLog.Grows.refl log).mono (Nat.zero_le 2)
  cases move with
  | enter i drawn args =>
    obtain ⟨log', hlogs, hgrows⟩ := h.logs.grows_enter h.resolution
    exact ⟨log', h.of_settings hlogs Probe.settings_enter, hgrows.mono one_le_two⟩
  | exit i drawn retval =>
    obtain ⟨log', hlogs, hgrows⟩ := h.logs.grows_exit
    have hsettings : (w.probe.next (.exit (w.surroundings drawn) i retval)).settings = _ :=
      Probe.settings_next
    exact ⟨log', h.of_settings hlogs hsettings, hgrows⟩
  | effect =>
    refine ⟨log, hsame _ ?_, hnone⟩
    cases hcall : w.call? with
    | none => simp only [TracedTree.next, hcall]
    | some call => simp only [TracedTree.next, hcall]
  | _ => exact ⟨log, hsame _ rfl, hnone⟩

theorem Tracing.after (h : w.Tracing log) (moves : List Move) :
    ∃ log', (w.after moves).Tracing log' ∧ log.Grows (2 * moves.length) log' := by
  induction moves generalizing w log with
  | nil => exact ⟨log, h, .refl log⟩
  | cons move moves ih =>
    obtain ⟨log₁, hnext, hfirst⟩ := h.next move
    obtain ⟨log', hafter, hrest⟩ := ih hnext
    refine ⟨log', hafter, (hfirst.trans hrest).mono ?_⟩
    rw [List.length_cons]
    omega

end TracedTree

end FsTrace
