import FsTrace.Proofs.TracedTrees
import FsTrace.Simulation
import Mathlib.Data.List.GetD
import Mathlib.Data.List.Perm.Basic

/-!
# Steps of workers

A simulation takes one step of one worker at a time, in any order. Whatever is drawn, a worker that
has calls left gets on with them: each call takes three of its steps.

* `Worker.Plans`: what all calls that a worker can plan have in common, with `Worker.plans`;
* `Simulation.Moves`: everything that one step can do, with `Simulation.moves_step`;
* `Simulation.Turns`: one worker has become another one, and the others are as they were;
* `Simulation.Advances`: what a step does, whichever worker takes it, and `run_of_advances`: what
  every step keeps holds after a run;
* `Simulation.left_run`: a worker gets on with each of its steps;
* `Simulation.returned`, the calls that return in a run, and `Simulation.returns_run`: those of a
  worker are its next ones, each once.
-/

namespace FsTrace

/-- A grown tree can be worked on: there is a file, and the top is one of the directories. -/
structure GrownTree.Usable (g : GrownTree) : Prop where
  files_ne_nil : g.files ≠ []
  top_mem : g.top ∈ g.folders

/-! ### Workers -/

/-- The call that is under way. -/
def Phase.operation? : Phase → Option Operation
  | .idle => none
  | .started operation | .performed operation => some operation

/-- The entries whose inode is changed. -/
def Effect.changed : Effect → List Handle
  | nothing => []
  | instantiate entry => [entry]
  | link _ target => [target]
  | move source target => [target, source]
  | unlink entry => [entry]

namespace Worker

/-- The key of the calls of a worker. -/
def key (w : Worker) : Nat := w.invocation.caller.threadKey

/-- The entries that a worker has, directories first. -/
def entries (w : Worker) : List Handle := w.directories ++ w.links

/-- The entries that a worker has, and before them the one that its call forgets at the end. -/
def held (w : Worker) : List Handle :=
  (w.phase.operation?.bind (·.dropped)).toList ++ w.entries

/-- The number of calls that have not begun yet. -/
def unbegun (operations : Nat) (w : Worker) : Nat := operations - w.begun

/-- The number of calls that have not returned yet. -/
def due (operations : Nat) (w : Worker) : Nat :=
  w.unbegun operations + w.phase.operation?.isSome.toNat

/-- The number of steps that are left. -/
def left (operations : Nat) (w : Worker) : Nat :=
  3 * w.unbegun operations +
    match w.phase with
    | .idle => 0
    | .started _ => 2
    | .performed _ => 1

/-- The number of the call that is the next to return. -/
def nextReturn (w : Worker) : Nat := w.begun + 1 - w.phase.operation?.isSome.toNat

/-- The worker after it began a call that was planned. -/
def begin (w : Worker) (time : UInt64) (operation : Operation) : Worker :=
  { w with
    invocation := { w.invocation with caller := { w.invocation.caller with timestamp := time } }
    begun := w.begun + 1
    phase := .started operation }

variable {w : Worker} {t : Tree} {grown : GrownTree} {operations : Nat}

/-- A worker has no steps left when all its calls have returned. -/
theorem left_eq_zero_iff : w.left operations = 0 ↔ w.phase = .idle ∧ operations ≤ w.begun := by
  unfold left unbegun
  split
  · next h =>
    rw [h]
    simp
    omega
  · next h => simp [h]
  · next h => simp [h]

theorem due_eq_zero (h : w.left operations = 0) : w.due operations = 0 := by
  obtain ⟨hidle, hbegun⟩ := left_eq_zero_iff.1 h
  simp [due, unbegun, hidle, Phase.operation?, Nat.sub_eq_zero_of_le hbegun]

variable {u : Worker} {operation : Operation} {time : UInt64}

/-- A call that begins is still due. -/
theorem due_begin (hidle : w.phase = .idle) (hbegun : w.begun < operations)
    (hu : u.begun = w.begun) : (u.begin time operation).due operations = w.due operations := by
  simp only [due, unbegun, begin, hu, hidle, Phase.operation?, Option.isSome_none,
    Option.isSome_some, Bool.toNat_false, Bool.toNat_true]
  omega

theorem due_performed (hphase : w.phase = .started operation) :
    { w with phase := .performed operation }.due operations = w.due operations := by
  simp [due, unbegun, hphase, Phase.operation?]

/-- A call that returns is due no more. -/
theorem due_idle (hphase : w.phase = .performed operation) :
    w.due operations = { w with phase := .idle }.due operations + 1 := by
  simp [due, unbegun, hphase, Phase.operation?]

/-! ### Plans -/

/-- A call that a worker plans is one that is traced, on a file of the grown tree or on an entry of
its own. The entry that it is to make, if any, is in a directory of the grown tree. It changes and
drops entries of its own only. -/
structure Plans (w : Worker) (t : Tree) (grown : GrownTree) (plan : Operation × Worker × Tree) :
    Prop where
  invocation_eq : plan.2.1.invocation = w.invocation
  begun_eq : plan.2.1.begun = w.begun
  isTraced : plan.1.args.isTraced = true
  made : plan.2.2 = t ∧ (plan.1.dropped.toList ++ plan.2.1.entries).Perm w.entries ∨
    ∃ folder ∈ grown.folders, ∃ name, plan.2.2 = (t.makeNegative folder name).2 ∧
      (plan.1.dropped.toList ++ plan.2.1.entries).Perm (⟨t.nextHandle⟩ :: w.entries)
  source_mem : plan.1.args.source ∈ grown.files ∨
    plan.1.args.source ∈ plan.1.dropped.toList ++ plan.2.1.entries
  changed_subset : ∀ d ∈ plan.1.effect.changed, d ∈ plan.1.dropped.toList ++ plan.2.1.entries

variable {file folder entry : Handle} {name : Bytes} {args : Arguments} {retval : Int64}
  {entries : List Handle}

theorem plans_plain (hargs : args.isTraced = true) (hsource : args.source ∈ grown.files) :
    w.Plans t grown ({ args, retval }, w, t) where
  invocation_eq := rfl
  begun_eq := rfl
  isTraced := hargs
  made := Or.inl ⟨rfl, .refl _⟩
  source_mem := Or.inl hsource
  changed_subset _ hd := nomatch hd

theorem plans_makeDir (hfolder : folder ∈ grown.folders) (name : Bytes) :
    w.Plans t grown (w.planMakeDir t folder name) where
  invocation_eq := rfl
  begun_eq := rfl
  isTraced := rfl
  made := Or.inr ⟨folder, hfolder, name, rfl, .refl _⟩
  source_mem := Or.inr List.mem_cons_self
  changed_subset d hd := by
    obtain rfl := List.mem_singleton.1 hd
    exact List.mem_cons_self

theorem plans_link (hfile : file ∈ grown.files) (hfolder : folder ∈ grown.folders) (name : Bytes) :
    w.Plans t grown (w.planLink t file folder name) where
  invocation_eq := rfl
  begun_eq := rfl
  isTraced := rfl
  made := Or.inr ⟨folder, hfolder, name, rfl, List.perm_middle⟩
  source_mem := Or.inl hfile
  changed_subset d hd := by
    obtain rfl := List.mem_singleton.1 hd
    exact List.mem_append_right w.directories List.mem_cons_self

theorem plans_removeDir (h : w.directories = entry :: entries) (dir : Handle) :
    w.Plans t grown ({ args := .removeDir dir entry, effect := .unlink entry, dropped := entry },
      { w with directories := entries }, t) where
  invocation_eq := rfl
  begun_eq := rfl
  isTraced := rfl
  made := by
    have hentries : w.entries = entry :: (entries ++ w.links) := by rw [Worker.entries, h]; rfl
    exact Or.inl ⟨rfl, .of_eq hentries.symm⟩
  source_mem := Or.inr List.mem_cons_self
  changed_subset d hd := by
    obtain rfl := List.mem_singleton.1 hd
    exact List.mem_cons_self

theorem plans_unlink (h : w.links = entry :: entries) (dir : Handle) :
    w.Plans t grown ({ args := .unlink dir entry, effect := .unlink entry, dropped := entry },
      { w with links := entries }, t) where
  invocation_eq := rfl
  begun_eq := rfl
  isTraced := rfl
  made := by
    have hentries : w.entries = w.directories ++ entry :: entries := by rw [Worker.entries, h]
    have hmoved : (entry :: (w.directories ++ entries)).Perm (w.directories ++ entry :: entries) :=
      List.perm_middle.symm
    exact Or.inl ⟨rfl, hentries ▸ hmoved⟩
  source_mem := Or.inr List.mem_cons_self
  changed_subset d hd := by
    obtain rfl := List.mem_singleton.1 hd
    exact List.mem_cons_self

/-- The new entry takes the place of the one that is moved. -/
theorem plans_rename (h : w.links = entry :: entries) (hfolder : folder ∈ grown.folders)
    (name : Bytes) :
    w.Plans t grown
      ({ args := .rename entry folder ⟨t.nextHandle⟩, effect := .move entry ⟨t.nextHandle⟩
         dropped := entry },
        { w with links := ⟨t.nextHandle⟩ :: entries }, (t.makeNegative folder name).2) where
  invocation_eq := rfl
  begun_eq := rfl
  isTraced := rfl
  made := by
    have hentries : w.entries = w.directories ++ entry :: entries := by rw [Worker.entries, h]
    rw [hentries]
    refine Or.inr ⟨folder, hfolder, name, rfl, ?_⟩
    calc (entry :: (w.directories ++ ⟨t.nextHandle⟩ :: entries)).Perm
          (entry :: ⟨t.nextHandle⟩ :: (w.directories ++ entries)) := List.perm_middle.cons _
      List.Perm _ (⟨t.nextHandle⟩ :: entry :: (w.directories ++ entries)) := .swap _ _ _
      List.Perm _ (⟨t.nextHandle⟩ :: (w.directories ++ entry :: entries)) :=
        List.perm_middle.symm.cons _
  source_mem := Or.inr List.mem_cons_self
  changed_subset d hd := by
    rcases List.mem_cons.1 hd with rfl | hd
    · exact List.mem_cons_of_mem _ (List.mem_append_right w.directories List.mem_cons_self)
    · obtain rfl := List.mem_singleton.1 hd
      exact List.mem_cons_self

/-- Whatever is drawn, a worker plans such a call. -/
theorem plans_plan (hgrown : grown.Usable) (w : Worker) (t : Tree) (c : Choice) :
    w.Plans t grown (w.plan t grown c) := by
  have hfile : grown.files.getD (c.file % grown.files.length) Tree.root ∈ grown.files := by
    have hindex := Nat.mod_lt c.file (List.length_pos_iff.2 hgrown.files_ne_nil)
    rw [List.getD_eq_getElem _ _ hindex]
    exact List.getElem_mem hindex
  have hfolder : grown.folders.getD (c.folder % grown.folders.length) grown.top ∈ grown.folders := by
    have hindex := Nat.mod_lt c.folder (List.length_pos_of_mem hgrown.top_mem)
    rw [List.getD_eq_getElem _ _ hindex]
    exact List.getElem_mem hindex
  cases hkind : c.kind with simp only [plan, hkind]
  | openFile => exact plans_plain rfl hfile
  | modify => exact plans_plain rfl hfile
  | setAttr => exact plans_plain rfl hfile
  | makeDir => exact plans_makeDir hfolder c.name
  | link => exact plans_link hfile hfolder c.name
  | removeDir =>
    split
    · exact plans_makeDir hfolder c.name
    · next hdirectories => exact plans_removeDir hdirectories _
  | unlink =>
    split
    · exact plans_link hfile hfolder c.name
    · next hlinks => exact plans_unlink hlinks _
  | rename =>
    split
    · exact plans_link hfile hfolder c.name
    · next hlinks => exact plans_rename hlinks hfolder c.name

end Worker

/-! ### Steps -/

namespace Simulation

variable {s s' : Simulation} {m : Moment} {index : Nat} {w w' : Worker} {operation : Operation}
  {emission : Option Emission} {schedule : List (Moment × Nat)}

/-- Everything that one step can do, and the record that it gives. -/
inductive Moves (s : Simulation) (m : Moment) (index : Nat) : Option Emission → Simulation → Prop
  /-- There is no such worker, or it has done all its calls. -/
  | rests (h : ∀ w, s.workers[index]? = some w → w.phase = .idle ∧ s.operations ≤ w.begun) :
      Moves s m index none s
  /-- A worker plans a call, and it starts. -/
  | begins (w : Worker) (plan : Operation × Worker × Tree) (hw : s.workers[index]? = some w)
      (hidle : w.phase = .idle) (hbegun : w.begun < s.operations)
      (hplan : w.plan s.tree s.grown m.choice = plan) :
      Moves s m index none
        { s with
          tree := plan.2.2
          probe := s.probe.enter ⟨.still plan.2.2.accessor, m.drawn⟩
            (plan.2.1.begin m.time plan.1).invocation plan.1.args
          workers := s.workers.set index (plan.2.1.begin m.time plan.1) }
  /-- A call changes the tree. -/
  | performs (w : Worker) (operation : Operation) (hw : s.workers[index]? = some w)
      (hphase : w.phase = .started operation) :
      Moves s m index none
        { s with
          tree := operation.effect.apply s.tree
          workers := s.workers.set index { w with phase := .performed operation } }
  /-- A call returns, and an entry that it removed is dropped. -/
  | completes (w : Worker) (operation : Operation) (hw : s.workers[index]? = some w)
      (hphase : w.phase = .performed operation) :
      Moves s m index (s.probe.exit (s.surroundings m) w.invocation operation.retval).1
        { s with
          probe := (s.probe.exit (s.surroundings m) w.invocation operation.retval).2
          tree := operation.dropped.elim s.tree s.tree.forget
          workers := s.workers.set index { w with phase := .idle } }

theorem moves_step (s : Simulation) (m : Moment) (index : Nat) :
    s.Moves m index (s.step m index).1 (s.step m index).2 := by
  unfold step
  split
  · next hnone =>
    refine .rests fun w hw => ?_
    rw [hnone] at hw
    cases hw
  · next w hw =>
    split
    · next hidle =>
      simp only [begin]
      split
      · next hbegun => exact .begins w _ hw hidle hbegun rfl
      · next hbegun =>
        refine .rests fun w' hw' => ?_
        obtain rfl := Option.some.inj (hw.symm.trans hw')
        exact ⟨hidle, Nat.le_of_not_lt hbegun⟩
    · next operation hphase => exact .performs w operation hw hphase
    · next operation hphase => exact .completes w operation hw hphase

/-! ### One worker among others -/

/-- One worker of a simulation has become another one, and the others are as they were. -/
structure Turns (s : Simulation) (w : Worker) (s' : Simulation) (w' : Worker)
    (others : List Worker) : Prop where
  before : s.workers.Perm (w :: others)
  after : s'.workers.Perm (w' :: others)

/-- The sum of a number of each worker. -/
def total (s : Simulation) (f : Worker → Nat) : Nat := (s.workers.map f).sum

theorem exists_others {workers : List Worker} (hw : workers[index]? = some w) :
    ∃ others, workers.Perm (w :: others) ∧ ∀ w', (workers.set index w').Perm (w' :: others) := by
  obtain ⟨hindex, rfl⟩ := List.getElem?_eq_some_iff.1 hw
  exact ⟨workers.eraseIdx index, (List.getElem_cons_eraseIdx_perm hindex).symm,
    fun w' => List.set_perm_cons_eraseIdx hindex w'⟩

namespace Turns

variable {others : List Worker}

theorem mem_before (h : s.Turns w s' w' others) {u : Worker} :
    u ∈ s.workers ↔ u = w ∨ u ∈ others := h.before.mem_iff.trans List.mem_cons

theorem mem_after (h : s.Turns w s' w' others) {u : Worker} :
    u ∈ s'.workers ↔ u = w' ∨ u ∈ others := h.after.mem_iff.trans List.mem_cons

theorem forall_after (h : s.Turns w s' w' others) {kept : Worker → Prop}
    (hall : ∀ u ∈ s.workers, kept u) (hw' : kept w') : ∀ u ∈ s'.workers, kept u := by
  intro u hu
  rcases h.mem_after.1 hu with rfl | hu
  · exact hw'
  · exact hall u (h.mem_before.2 (Or.inr hu))

theorem total_eq (h : s.Turns w s' w' others) (f : Worker → Nat) :
    s'.total f + f w = s.total f + f w' := by
  have hbefore : s.total f = f w + (others.map f).sum := (h.before.map f).sum_eq
  have hafter : s'.total f = f w' + (others.map f).sum := (h.after.map f).sum_eq
  omega

theorem keys_perm (h : s.Turns w s' w' others) (hkey : w'.key = w.key) :
    (s'.workers.map Worker.key).Perm (s.workers.map Worker.key) := by
  refine (h.after.map _).trans (.trans ?_ (h.before.map _).symm)
  rw [List.map_cons, List.map_cons, hkey]

/-- Where keys are distinct, no other worker has the key of this one. -/
theorem key_ne (h : s.Turns w s' w' others) (hkeys : (s.workers.map Worker.key).Nodup)
    {u : Worker} (hu : u ∈ others) : u.key ≠ w.key := by
  have hnodup := (h.before.map Worker.key).nodup_iff.1 hkeys
  rw [List.map_cons, List.nodup_cons] at hnodup
  intro heq
  exact hnodup.1 (heq ▸ List.mem_map_of_mem hu)

end Turns

/-! ### What a step does, whichever worker takes it -/

/-- What a step does not change. -/
structure Same (s s' : Simulation) : Prop where
  operations_eq : s'.operations = s.operations
  grown_eq : s'.grown = s.grown
  length_eq : s'.workers.length = s.workers.length

theorem Moves.same (h : s.Moves m index emission s') : s.Same s' := by
  cases h with
  | rests => exact ⟨rfl, rfl, rfl⟩
  | begins | performs | completes => exact ⟨rfl, rfl, List.length_set⟩

/-- Everything that a step of any worker can do, and the record that it gives. -/
inductive Advances (s : Simulation) (m : Moment) : Option Emission → Simulation → Prop
  | rests : Advances s m none s
  | begins {s' : Simulation} (w : Worker) (plan : Operation × Worker × Tree) (others : List Worker)
      (hidle : w.phase = .idle) (hbegun : w.begun < s.operations)
      (hplans : w.Plans s.tree s.grown plan) (hsame : s.Same s')
      (hturns : s.Turns w s' (plan.2.1.begin m.time plan.1) others) (htree : s'.tree = plan.2.2)
      (hprobe : s'.probe = s.probe.next (.enter ⟨.still s'.tree.accessor, m.drawn⟩
        (plan.2.1.begin m.time plan.1).invocation plan.1.args)) :
      Advances s m none s'
  | performs {s' : Simulation} (w : Worker) (operation : Operation) (others : List Worker)
      (hphase : w.phase = .started operation) (hsame : s.Same s')
      (hturns : s.Turns w s' { w with phase := .performed operation } others)
      (htree : s'.tree = operation.effect.apply s.tree) (hprobe : s'.probe = s.probe) :
      Advances s m none s'
  | completes {s' : Simulation} (w : Worker) (operation : Operation) (others : List Worker)
      (hphase : w.phase = .performed operation) (hsame : s.Same s')
      (hturns : s.Turns w s' { w with phase := .idle } others)
      (htree : s'.tree = operation.dropped.elim s.tree s.tree.forget)
      (hprobe : s'.probe =
        s.probe.next (.exit (s.surroundings m) w.invocation operation.retval)) :
      Advances s m (s.probe.exit (s.surroundings m) w.invocation operation.retval).1 s'

theorem Moves.advances (h : s.Moves m index emission s') (hgrown : s.grown.Usable) :
    s.Advances m emission s' := by
  have hsame := h.same
  cases h with
  | rests => exact .rests
  | begins w plan hw hidle hbegun hplan =>
    obtain ⟨others, hbefore, hafter⟩ := exists_others hw
    exact .begins w plan others hidle hbegun (hplan ▸ Worker.plans_plan hgrown w s.tree m.choice)
      hsame ⟨hbefore, hafter _⟩ rfl rfl
  | performs w operation hw hphase =>
    obtain ⟨others, hbefore, hafter⟩ := exists_others hw
    exact .performs w operation others hphase hsame ⟨hbefore, hafter _⟩ rfl rfl
  | completes w operation hw hphase =>
    obtain ⟨others, hbefore, hafter⟩ := exists_others hw
    exact .completes w operation others hphase hsame ⟨hbefore, hafter _⟩ rfl rfl

theorem Advances.same (h : s.Advances m emission s') : s.Same s' := by
  cases h with
  | rests => exact ⟨rfl, rfl, rfl⟩
  | begins | performs | completes => assumption

theorem same_run (s : Simulation) (schedule : List (Moment × Nat)) :
    s.Same (s.run schedule).2 := by
  induction schedule generalizing s with
  | nil => exact ⟨rfl, rfl, rfl⟩
  | cons turn schedule ih =>
    have hstep := (s.moves_step turn.1 turn.2).same
    have hrun : (s.step turn.1 turn.2).2.Same ((s.step turn.1 turn.2).2.run schedule).2 := ih _
    exact ⟨hrun.operations_eq.trans hstep.operations_eq, hrun.grown_eq.trans hstep.grown_eq,
      hrun.length_eq.trans hstep.length_eq⟩

/-- What every step keeps holds after a run. -/
theorem run_of_advances (kept : Simulation → Prop)
    (hstep : ∀ {s m emission s'}, Advances s m emission s' → kept s → kept s')
    (hgrown : s.grown.Usable) (h : kept s) (schedule : List (Moment × Nat)) :
    kept (s.run schedule).2 := by
  induction schedule generalizing s with
  | nil => exact h
  | cons turn schedule ih =>
    have hmove := s.moves_step turn.1 turn.2
    have hgrown' : (s.step turn.1 turn.2).2.grown.Usable := by rwa [hmove.same.grown_eq]
    exact ih hgrown' (hstep (hmove.advances hgrown) h)

/-! ### Progress -/

/-- A step of another worker leaves a worker as it is. -/
theorem Moves.worker_of_ne (h : s.Moves m index emission s') {i : Nat} (hi : index ≠ i) :
    s'.workers[i]? = s.workers[i]? := by
  cases h with
  | rests => rfl
  | begins | performs | completes => exact List.getElem?_set_ne hi

/-- Each step of a worker that has steps left is one less. -/
theorem Moves.left_eq (h : s.Moves m index emission s') (hw : s.workers[index]? = some w)
    (hgrown : s.grown.Usable) :
    ∃ w', s'.workers[index]? = some w' ∧
      w'.left s'.operations = w.left s.operations - 1 := by
  have hindex : index < s.workers.length := (List.getElem?_eq_some_iff.1 hw).1
  cases h with
  | rests h =>
    refine ⟨w, hw, ?_⟩
    rw [Worker.left_eq_zero_iff.2 (h w hw)]
  | begins u plan hu hidle hbegun hplan =>
    obtain rfl := Option.some.inj (hw.symm.trans hu)
    have hbegun' : plan.2.1.begun = w.begun :=
      (hplan ▸ Worker.plans_plan hgrown w s.tree m.choice).begun_eq
    refine ⟨_, List.getElem?_set_self hindex, ?_⟩
    simp only [Worker.left, Worker.unbegun, Worker.begin, hbegun', hidle]
    omega
  | performs u operation hu hphase =>
    obtain rfl := Option.some.inj (hw.symm.trans hu)
    refine ⟨_, List.getElem?_set_self hindex, ?_⟩
    simp only [Worker.left, Worker.unbegun, hphase]
    omega
  | completes u operation hu hphase =>
    obtain rfl := Option.some.inj (hw.symm.trans hu)
    refine ⟨_, List.getElem?_set_self hindex, ?_⟩
    simp only [Worker.left, Worker.unbegun, hphase]
    omega

/-- A worker that got a number of steps has so many less left. -/
theorem left_run (hgrown : s.grown.Usable)
    (hw : s.workers[index]? = some w) (schedule : List (Moment × Nat)) :
    ∃ w', (s.run schedule).2.workers[index]? = some w' ∧ w'.left s.operations =
      w.left s.operations - (schedule.map Prod.snd).count index := by
  induction schedule generalizing s w with
  | nil => exact ⟨w, hw, rfl⟩
  | cons turn schedule ih =>
    have hmove := s.moves_step turn.1 turn.2
    have hgrown' : (s.step turn.1 turn.2).2.grown.Usable := by rwa [hmove.same.grown_eq]
    obtain ⟨u, hu, hleft⟩ : ∃ u, (s.step turn.1 turn.2).2.workers[index]? = some u ∧
        u.left s.operations =
          w.left s.operations - if turn.2 = index then 1 else 0 := by
      by_cases hturn : turn.2 = index
      · obtain ⟨u, hu, hleft⟩ := hmove.left_eq (hturn ▸ hw) hgrown
        rw [hmove.same.operations_eq] at hleft
        exact ⟨u, hturn ▸ hu, by rw [hleft, if_pos hturn]⟩
      · exact ⟨w, (hmove.worker_of_ne hturn).trans hw, by rw [if_neg hturn, Nat.sub_zero]⟩
    obtain ⟨w', hw', hleft'⟩ := ih hgrown' hu
    rw [hmove.same.operations_eq, hleft] at hleft'
    refine ⟨w', hw', hleft'.trans ?_⟩
    rw [List.map_cons, List.count_cons, Nat.sub_sub, Nat.add_comm]
    simp

/-! ### Returns -/

/-- A call that returns: who made it, the how many-th of its worker it is, and what it does. -/
structure Return where
  worker : Nat
  number : Nat
  caller : Caller
  operation : Operation

/-- The call that returns in the next step of a worker. -/
def return? (s : Simulation) (index : Nat) : Option Return :=
  s.workers[index]?.bind fun w =>
    match w.phase with
    | .performed operation => some ⟨index, w.begun, w.invocation.caller, operation⟩
    | _ => none

/-- The calls that return in a run, in order. -/
def returned (s : Simulation) : List (Moment × Nat) → List Return
  | [] => []
  | (moment, index) :: schedule =>
    (s.return? index).toList ++ (s.step moment index).2.returned schedule

theorem return?_of (hw : s.workers[index]? = some w) :
    s.return? index =
      match w.phase with
      | .performed operation => some ⟨index, w.begun, w.invocation.caller, operation⟩
      | _ => none := by
  rw [return?, hw, Option.bind_some]

theorem worker_of_return? {call : Return} (h : s.return? index = some call) :
    call.worker = index := by
  obtain ⟨w, -, hcall⟩ := Option.bind_eq_some_iff.1 h
  split at hcall
  · exact Option.some.inj hcall ▸ rfl
  · cases hcall

/-- From one state of a worker to a later one, the calls of these numbers returned: the next ones,
in order. -/
def Returns (operations : Nat) (w : Worker) (numbers : List Nat) (w' : Worker) : Prop :=
  ∃ n, numbers = List.range' w.nextReturn n ∧ w.due operations = n + w'.due operations ∧
    w'.nextReturn = w.nextReturn + n

theorem Returns.refl (operations : Nat) (w : Worker) : Returns operations w [] w :=
  ⟨0, rfl, (Nat.zero_add _).symm, rfl⟩

theorem Returns.trans {operations : Nat} {u v : Worker} {numbers numbers' : List Nat}
    (h : Returns operations u numbers v) (h' : Returns operations v numbers' w) :
    Returns operations u (numbers ++ numbers') w := by
  obtain ⟨n, rfl, hdue, hnext⟩ := h
  obtain ⟨n', rfl, hdue', hnext'⟩ := h'
  refine ⟨n + n', ?_, by omega, by omega⟩
  rw [hnext, List.range'_append_1]

theorem Moves.returns (h : s.Moves m index emission s') (hw : s.workers[index]? = some w)
    (hgrown : s.grown.Usable) :
    ∃ w', s'.workers[index]? = some w' ∧
      Returns s.operations w ((s.return? index).toList.map (·.number)) w' := by
  have hindex : index < s.workers.length := (List.getElem?_eq_some_iff.1 hw).1
  rw [return?_of hw]
  cases h with
  | rests h =>
    rw [(h w hw).1]
    exact ⟨w, hw, .refl _ w⟩
  | begins u plan hu hidle hbegun hplan =>
    obtain rfl := Option.some.inj (hw.symm.trans hu)
    have hbegun' : plan.2.1.begun = w.begun :=
      (hplan ▸ Worker.plans_plan hgrown w s.tree m.choice).begun_eq
    refine ⟨_, List.getElem?_set_self hindex, 0, by rw [hidle]; rfl, ?_, ?_⟩
    · rw [Worker.due_begin hidle hbegun hbegun', Nat.zero_add]
    · simp [Worker.nextReturn, Worker.begin, hbegun', hidle, Phase.operation?]
  | performs u operation hu hphase =>
    obtain rfl := Option.some.inj (hw.symm.trans hu)
    refine ⟨_, List.getElem?_set_self hindex, 0, by rw [hphase]; rfl, ?_, ?_⟩
    · rw [Worker.due_performed hphase, Nat.zero_add]
    · simp [Worker.nextReturn, hphase, Phase.operation?]
  | completes u operation hu hphase =>
    obtain rfl := Option.some.inj (hw.symm.trans hu)
    refine ⟨_, List.getElem?_set_self hindex, 1, ?_, ?_, ?_⟩
    · simp [Worker.nextReturn, hphase, Phase.operation?]
    · rw [Worker.due_idle hphase, Nat.add_comm]
    · simp [Worker.nextReturn, hphase, Phase.operation?]

/-- The calls of a worker that return in a run are its next ones, each once. -/
theorem returns_run (hgrown : s.grown.Usable)
    (hw : s.workers[index]? = some w) (schedule : List (Moment × Nat)) :
    ∃ w', (s.run schedule).2.workers[index]? = some w' ∧ Returns s.operations w
      (((s.returned schedule).filter (·.worker = index)).map (·.number)) w' := by
  induction schedule generalizing s w with
  | nil => exact ⟨w, hw, .refl _ w⟩
  | cons turn schedule ih =>
    have hmove := s.moves_step turn.1 turn.2
    have hgrown' : (s.step turn.1 turn.2).2.grown.Usable := by rwa [hmove.same.grown_eq]
    obtain ⟨u, hu, hreturns⟩ : ∃ u, (s.step turn.1 turn.2).2.workers[index]? = some u ∧
        Returns s.operations w
          (((s.return? turn.2).toList.filter (·.worker = index)).map (·.number)) u := by
      by_cases hturn : turn.2 = index
      · obtain ⟨u, hu, hreturns⟩ := hmove.returns (hturn ▸ hw) hgrown
        have hall : (s.return? turn.2).toList.filter (·.worker = index) =
            (s.return? turn.2).toList := by
          refine List.filter_eq_self.2 fun call hcall => decide_eq_true ?_
          exact (worker_of_return? (Option.mem_toList.1 hcall)).trans hturn
        rw [hall]
        exact ⟨u, hturn ▸ hu, hreturns⟩
      · have hnone : (s.return? turn.2).toList.filter (·.worker = index) = [] := by
          refine List.filter_eq_nil_iff.2 fun call hcall => ?_
          rw [worker_of_return? (Option.mem_toList.1 hcall)]
          simpa using hturn
        rw [hnone]
        exact ⟨w, (hmove.worker_of_ne hturn).trans hw, .refl _ w⟩
    obtain ⟨w', hw', hreturns'⟩ := ih hgrown' hu
    rw [hmove.same.operations_eq] at hreturns'
    refine ⟨w', hw', ?_⟩
    rw [returned, List.filter_append, List.map_append]
    exact hreturns.trans hreturns'

end Simulation

end FsTrace
