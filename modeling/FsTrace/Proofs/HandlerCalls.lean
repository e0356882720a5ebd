import FsTrace.Probe
import FsTrace.Proofs.TableContents
import Mathlib.Tactic

/-!
# Calls of the handlers

What each handler of a probe does to the operations in flight, in any order of calls.

* `Thread`, which a key stands for; `Step`: one call, and `Probe.after`: a probe after some calls;
* `Arguments.captured`: what is captured in a new call; `Arguments.fills_capture`: what capturing
  leaves as it was in the call that it fills; `Arguments.capture_prepare`: in a slot that was readied
  the same is captured as in a new call;
* `Probe.Accepts`: the kind is traced and an end of the operation is in scope;
* `Probe.enter_of_accepts`, `Probe.enter_of_filtered`, `Probe.enter_of_not_traced`: what the start of
  an operation does; by `Probe.pending_enter_of_accepts` and `Probe.pending_enter_of_not_accepts` it
  is kept just when it is accepted;
* `Probe.exit_of_none`, `Probe.exit_of_some`: a return gives a record just when a start is kept, and
  then one that `Event.Reports` it.
-/

namespace FsTrace

/-! ### Threads -/

/-- A thread of a process. -/
structure Thread where
  pid : UInt32
  tid : UInt32
  deriving DecidableEq

/-- The thread that runs an operation. -/
def Caller.thread (c : Caller) : Thread := ⟨c.pid, c.tid⟩

/-- The key of a thread. -/
def Thread.key (t : Thread) : Nat := (t.pid.toNat <<< 32) + t.tid.toNat

theorem Caller.key_thread (c : Caller) : c.thread.key = c.threadKey := rfl

theorem Thread.key_inj {t u : Thread} : t.key = u.key ↔ t = u := by
  have h := Caller.threadKey_eq_iff (p := { pid := t.pid, tid := t.tid })
    (q := { pid := u.pid, tid := u.tid })
  exact h.trans (by rw [Thread.mk.injEq])

/-! ### Watched entries -/

namespace WatchSet

variable {w : WatchSet} {inode parentInode i j : Inode}

/-- An inode is watched. -/
def Watches (w : WatchSet) (inode : Inode) : Prop :=
  inode ≠ 0 ∧ (w.inodes.peek? inode).isSome

/-- An entry is let through: by a set that is not enabled, or since it or its directory is
watched. -/
def Covers (w : WatchSet) (inode parentInode : Inode) : Prop :=
  w.enabled = false ∨ w.Watches inode ∨ w.Watches parentInode

theorem fst_watches : (w.watches inode).1 = true ↔ w.Watches inode := by
  unfold watches Watches
  split
  · next h => simp [h]
  · next h => simp [h]

@[simp] theorem enabled_watches : (w.watches inode).2.enabled = w.enabled := by
  unfold watches
  split <;> rfl

theorem enabled_inScope : (w.inScope inode parentInode).2.enabled = w.enabled := by
  have hsource : (w.watches inode).2.enabled = w.enabled := enabled_watches
  unfold inScope
  split
  · split
    · next h => exact congrArg (·.2.enabled) h ▸ hsource
    · next h => exact enabled_watches.trans (congrArg (·.2.enabled) h ▸ hsource)
  · rfl

theorem enabled_register : (w.register inode).2.enabled = w.enabled := by
  have hwatches : (w.watches inode).2.enabled = w.enabled := enabled_watches
  unfold register
  split
  · rfl
  · split
    · next h => exact congrArg (·.2.enabled) h ▸ hwatches
    · next h => exact congrArg (·.2.enabled) h ▸ hwatches

@[simp] theorem watches_watches : (w.watches inode).2.Watches i ↔ w.Watches i := by
  unfold watches Watches
  split
  · rfl
  · simp

@[simp] theorem covers_watches : (w.watches inode).2.Covers i j ↔ w.Covers i j := by
  simp [Covers]

theorem fst_inScope : (w.inScope inode parentInode).1 = true ↔ w.Covers inode parentInode := by
  unfold inScope Covers
  cases henabled : w.enabled with
  | false => simp
  | true =>
    have hfst : (w.watches inode).1 = true ↔ w.Watches inode := fst_watches
    have hsnd : ((w.watches inode).2.watches parentInode).1 = true ↔ w.Watches parentInode :=
      fst_watches.trans watches_watches
    cases hfound : w.watches inode with
    | mk found w' =>
      rw [hfound] at hfst hsnd
      cases found with
      | true => simp [hfst.1 rfl]
      | false => simpa [mt hfst.2] using hsnd

@[simp] theorem covers_inScope : (w.inScope inode parentInode).2.Covers i j ↔ w.Covers i j := by
  have hcovers : (w.watches inode).2.Covers i j ↔ w.Covers i j := covers_watches
  unfold inScope
  split
  · split
    · next w' h =>
      rw [h] at hcovers
      exact hcovers
    · next w' h =>
      rw [h] at hcovers
      exact covers_watches.trans hcovers
  · rfl

end WatchSet

/-! ### Captured calls -/

/-- A record tells of a captured event: who ran which operation on what, and what it returned. A
directory that is made has its inode only when the operation returns. -/
structure Event.Reports (e captured : Event) (retval : Int64) : Prop where
  kind_eq : e.kind = captured.kind
  caller_eq : e.caller = captured.caller
  flags_eq : e.flags = captured.flags
  mode_eq : e.mode = captured.mode
  mount_eq : e.src.mount = captured.src.mount
  device_eq : e.src.device = captured.src.device
  inode_eq : captured.kind ≠ .makeDir → e.src.inode = captured.src.inode
  retval_eq : e.retval = retval

/-- A call keeps what was captured, but for the key under which the source's path is stored. -/
def PendingCall.Keeps (call : PendingCall) (captured : Event) : Prop :=
  ∃ pathKey, call.event = { captured with src := { captured.src with pathKey } }

theorem PendingCall.Keeps.reports {call : PendingCall} {captured e : Event} {retval : Int64}
    (h : call.Keeps captured) (he : e.Reports call.event retval) : e.Reports captured retval := by
  obtain ⟨pathKey, h⟩ := h
  rw [h] at he
  exact ⟨he.kind_eq, he.caller_eq, he.flags_eq, he.mode_eq, he.mount_eq, he.device_eq, he.inode_eq,
    he.retval_eq⟩

/-- A call is another one with what was seen of the operation filled in: it has the same kind and
caller, and all that tells where a path is has stayed as it was. -/
structure PendingCall.Fills (filled call : PendingCall) : Prop where
  kind_eq : filled.event.kind = call.event.kind
  caller_eq : filled.event.caller = call.event.caller
  target_eq : filled.event.target = call.event.target
  pathKey_eq : filled.event.src.pathKey = call.event.src.pathKey
  pathLength_eq : filled.event.src.pathLength = call.event.src.pathLength
  srcPath_eq : filled.srcPath = call.srcPath

namespace Arguments

/-- What is captured when an operation starts: a new call, filled. -/
def captured (a : Accessor) (caller : Caller) (args : Arguments) : PendingCall :=
  args.capture a (.start args.kind caller)

variable (a : Accessor) (caller : Caller) (args : Arguments)

theorem fills_capture (call : PendingCall) : (args.capture a call).Fills call := by
  cases args <;> constructor <;> rfl

/-- In a slot that was readied for the operation, the same is captured as in a new call. -/
theorem capture_prepare (slot : Scratch) :
    args.capture a (slot.prepare args.kind caller).pending = args.captured a caller := rfl

@[simp] theorem caller_captured : (args.captured a caller).event.caller = caller :=
  (fills_capture a args _).caller_eq

end Arguments

theorem PendingCall.Keeps.caller_captured {call : PendingCall} {a : Accessor} {caller : Caller}
    {args : Arguments} (h : call.Keeps (args.captured a caller).event) :
    call.event.caller = caller := by
  obtain ⟨pathKey, hevent⟩ := h
  rw [hevent]
  exact args.caller_captured a caller

namespace Probe

variable {p : Probe} {s : Surroundings} {i : Invocation} {args : Arguments} {retval : Int64}
  {call : PendingCall}

/-- An end of the operation is let through. -/
def InScope (p : Probe) (a : Accessor) (call : PendingCall) : Prop :=
  p.watched.Covers (a.inodeOf call.srcEntry) (a.parentInodeOf call.srcEntry) ∨
    call.event.kind.hasTarget = true ∧
      p.watched.Covers (a.inodeOf call.targetEntry) (a.inodeOf call.targetDir)

/-- The start of an operation is accepted: its kind is traced, and it is in scope. -/
def Accepts (p : Probe) (s : Surroundings) (i : Invocation) (args : Arguments) : Prop :=
  p.modes.events.contains args.kind = true ∧ args.isTraced = true ∧
    p.InScope (s.view 1) (args.captured (s.view 0) i.caller)

instance : Decidable (p.Accepts s i args) := by
  unfold Accepts InScope WatchSet.Covers WatchSet.Watches
  infer_instance

theorem fst_inScope {a : Accessor} : (p.inScope a call).1 = true ↔ p.InScope a call := by
  have hsource : (p.watched.inScope (a.inodeOf call.srcEntry)
      (a.parentInodeOf call.srcEntry)).1 = true ↔ _ := WatchSet.fst_inScope
  have htarget : ((p.watched.inScope (a.inodeOf call.srcEntry)
      (a.parentInodeOf call.srcEntry)).2.inScope (a.inodeOf call.targetEntry)
        (a.inodeOf call.targetDir)).1 = true ↔ _ :=
    WatchSet.fst_inScope.trans WatchSet.covers_inScope
  unfold inScope InScope
  rw [← hsource, ← htarget]
  cases p.watched.inScope (a.inodeOf call.srcEntry) (a.parentInodeOf call.srcEntry) with
  | mk found watched =>
    cases found with
    | true => simp
    | false =>
      simp only [Bool.false_eq_true, false_or]
      split
      · next h => simp [h]
      · next h => simp [h]

/-! ### What is left alone -/

@[simp] theorem pending_count (counter : Counter) : (p.count counter).pending = p.pending := rfl

theorem pending_resolveRenameSource (paths : PathBuffer) :
    (p.resolveRenameSource s paths call).2.2.pending = p.pending := by
  unfold resolveRenameSource
  simp only
  split
  · next h => exact (congrArg (fun r => r.2.2.pending) h).symm
  · next h => exact (congrArg (fun r => r.2.2.pending) h).symm

theorem pending_sourcePath (paths : PathBuffer) :
    (p.sourcePath s paths call).2.2.pending = p.pending := by
  unfold sourcePath
  split <;> rfl

theorem pending_targetPath (paths : PathBuffer) :
    (p.targetPath s paths call).2.2.pending = p.pending := by
  unfold targetPath
  simp only
  split <;> split <;> rfl

theorem pending_registerFollowup (event : Event) :
    (p.registerFollowup event).pending = p.pending := by
  unfold registerFollowup
  simp only
  split
  · split <;> rfl
  · rfl

theorem pending_finish : (p.finish s i retval call).2.pending = p.pending := by
  simp only [finish, pending_count, pending_registerFollowup, pending_targetPath,
    pending_sourcePath]

theorem truncatedPaths_countIf_of_ne (p : Probe) (condition : Bool) {counter : Counter}
    (hne : counter ≠ .truncatedPaths) :
    (p.countIf condition counter).counters.truncatedPaths = p.counters.truncatedPaths := by
  show (p.counters.incrementIf condition counter).get .truncatedPaths =
    p.counters.get .truncatedPaths
  rw [Counters.get_incrementIf, if_neg hne, Nat.add_zero]

theorem truncatedPaths_park (p : Probe) (key : Nat) (call : PendingCall) :
    (p.park key call).counters.truncatedPaths = p.counters.truncatedPaths :=
  truncatedPaths_countIf_of_ne { p with pending := _ } _ (by decide)

theorem truncatedPaths_registerFollowup (event : Event) :
    (p.registerFollowup event).counters.truncatedPaths = p.counters.truncatedPaths := by
  unfold registerFollowup
  simp only
  split
  · split
    · exact truncatedPaths_countIf_of_ne (p.watch _).2 _ (by decide)
    · rfl
  · rfl

/-! ### The start of an operation -/

theorem keeps_self : call.Keeps call.event := ⟨call.event.src.pathKey, rfl⟩

theorem keeps_resolveRenameSource (paths : PathBuffer) :
    (p.resolveRenameSource s paths call).1.Keeps call.event := by
  have hdrawn : (if p.modes.resolution = .fragmentStore then
      { call with event.src.pathKey := (s.drawn 0).key } else call).Keeps call.event := by
    split
    · exact ⟨_, rfl⟩
    · exact keeps_self
  unfold resolveRenameSource
  simp only
  split <;> exact hdrawn

theorem pending_park (key : Nat) : (p.park key call).pending = (p.pending.start key call).2 := rfl

theorem snd_inScope (p : Probe) (a : Accessor) (call : PendingCall) :
    ∃ watched, (p.inScope a call).2 = { p with watched } := by
  unfold inScope
  split
  · exact ⟨_, rfl⟩
  · split <;> exact ⟨_, rfl⟩

/-- What an accepted start does: it captures the call in its slot, lets a rename resolve its source,
and keeps the call. What the slot held before has no part in it. -/
theorem enter_of_accepts (h : p.Accepts s i args) :
    ∃ watched, (p.inScope (s.view 1) (args.captured (s.view 0) i.caller)).2.watched = watched ∧
      p.enter s i args =
        let slot := (p.scratch.slot i.unit).prepare args.kind i.caller
        let call := args.captured (s.view 0) i.caller
        let r :=
          if args.kind = .rename then
            { p with watched }.resolveRenameSource { s with view := s.view.later 2 } slot.paths call
          else (call, slot.paths, { p with watched })
        { r.2.2 with scratch := r.2.2.scratch.setSlot i.unit ⟨r.1, r.2.1⟩ }.park
          i.caller.threadKey r.1 := by
  obtain ⟨hkind, htraced, hscope⟩ := h
  have hfound := fst_inScope.2 hscope
  obtain ⟨watched, hasked⟩ := snd_inScope p (s.view 1) (args.captured (s.view 0) i.caller)
  refine ⟨watched, congrArg Probe.watched hasked, ?_⟩
  unfold enter
  rw [if_pos (by simp [hkind, htraced])]
  simp only [Arguments.capture_prepare]
  split
  · next hresult => simp [hresult] at hfound
  · next p' hresult =>
    obtain rfl : p' = { p with watched } := (congrArg Prod.snd hresult).symm.trans hasked
    rfl

/-- A start whose kind is not traced does nothing. -/
theorem enter_of_not_traced (h : ¬ (p.modes.events.contains args.kind && args.isTraced) = true) :
    p.enter s i args = p := if_neg h

/-- A start that is traced and out of scope is counted. -/
theorem enter_of_filtered (htraced : (p.modes.events.contains args.kind && args.isTraced) = true)
    (h : ¬ p.Accepts s i args) :
    ∃ watched scratch,
      (p.inScope (s.view 1) (args.captured (s.view 0) i.caller)).2.watched = watched ∧
        p.enter s i args = { p with watched, scratch }.count .filteredOut := by
  have hfound : ¬ (p.inScope (s.view 1) (args.captured (s.view 0) i.caller)).1 = true := by
    intro hfound
    rw [Bool.and_eq_true] at htraced
    exact h ⟨htraced.1, htraced.2, fst_inScope.1 hfound⟩
  obtain ⟨watched, hasked⟩ := snd_inScope p (s.view 1) (args.captured (s.view 0) i.caller)
  unfold enter
  rw [if_pos htraced]
  simp only [Arguments.capture_prepare]
  split
  · next p' hresult =>
    obtain rfl : p' = { p with watched } := (congrArg Prod.snd hresult).symm.trans hasked
    exact ⟨watched, _, congrArg Probe.watched hasked, rfl⟩
  · next p' hresult => simp [hresult] at hfound

/-- An accepted start is kept, in place of an earlier one of the same thread. -/
theorem pending_enter_of_accepts (h : p.Accepts s i args) :
    ∃ call : PendingCall, call.Keeps (args.captured (s.view 0) i.caller).event ∧
      (p.enter s i args).pending = (p.pending.start i.caller.threadKey call).2 := by
  obtain ⟨watched, -, henter⟩ := enter_of_accepts h
  rw [henter]
  simp only [pending_park]
  split
  · -- a rename brings its source's path along
    rw [pending_resolveRenameSource]
    exact ⟨_, keeps_resolveRenameSource _, rfl⟩
  · exact ⟨_, keeps_self, rfl⟩

/-- A start that is not accepted leaves the operations in flight alone. -/
theorem pending_enter_of_not_accepts (h : ¬ p.Accepts s i args) :
    (p.enter s i args).pending = p.pending := by
  by_cases htraced : (p.modes.events.contains args.kind && args.isTraced) = true
  · obtain ⟨watched, scratch, -, henter⟩ := enter_of_filtered htraced h
    rw [henter, pending_count]
  · rw [enter_of_not_traced htraced]

/-! ### The return of an operation -/

/-- What can be read only afterwards leaves what was captured alone. -/
theorem reports_readOutcome (a : Accessor) :
    (readOutcome a retval call).event.Reports call.event retval := by
  unfold readOutcome
  simp only
  split
  · next hmake => exact ⟨rfl, rfl, rfl, rfl, rfl, rfl, fun hne => absurd hmake hne, rfl⟩
  · exact ⟨rfl, rfl, rfl, rfl, rfl, rfl, fun _ => rfl, rfl⟩
  · exact ⟨rfl, rfl, rfl, rfl, rfl, rfl, fun _ => rfl, rfl⟩
  · exact ⟨rfl, rfl, rfl, rfl, rfl, rfl, fun _ => rfl, rfl⟩

theorem reports_finish : (p.finish s i retval call).1.event.Reports call.event retval := by
  have h : (readOutcome (s.view 0) retval call).event.Reports call.event retval :=
    reports_readOutcome _
  have hpath : ∀ (e : Endpoint) path, (e.recordPath path).mount = e.mount ∧
      (e.recordPath path).device = e.device ∧ (e.recordPath path).inode = e.inode := by
    intro e path
    cases path <;> exact ⟨rfl, rfl, rfl⟩
  simp only [finish]
  exact ⟨h.kind_eq, h.caller_eq, h.flags_eq, h.mode_eq, (hpath _ _).1.trans h.mount_eq,
    (hpath _ _).2.1.trans h.device_eq, fun hne => (hpath _ _).2.2.trans (h.inode_eq hne),
    h.retval_eq⟩

/-- A return takes the call of its thread out. -/
theorem pending_exit :
    (p.exit s i retval).2.pending = (p.pending.complete i.caller.threadKey).2 := by
  unfold exit
  split
  · next call pending h =>
    rw [h]
    exact pending_finish
  · next pending h =>
    rw [h]
    rfl

/-- Without a call of its thread, a return is only counted. -/
theorem exit_eq_of_none (h : p.pending.peek? i.caller.threadKey = none) :
    p.exit s i retval =
      (none, { p with pending := (p.pending.complete i.caller.threadKey).2 }.count
        .missingCorrelation) := by
  have hcomplete : (p.pending.complete i.caller.threadKey).1 = none :=
    (Table.fst_remove _ _).trans h
  unfold exit
  split
  · next call pending hresult => simp [hresult] at hcomplete
  · next pending hresult => rw [hresult]

/-- With a call of its thread, a return takes it out and completes it. -/
theorem exit_eq_of_some (h : p.pending.peek? i.caller.threadKey = some call) :
    p.exit s i retval =
      ({ p with pending := (p.pending.complete i.caller.threadKey).2 }.finish s i retval
        call).map some id := by
  have hcomplete : (p.pending.complete i.caller.threadKey).1 = some call :=
    (Table.fst_remove _ _).trans h
  unfold exit
  split
  · next call' pending hresult =>
    rw [hresult] at hcomplete ⊢
    obtain rfl := Option.some.inj hcomplete
    rfl
  · next pending hresult => simp [hresult] at hcomplete

theorem exit_of_none (h : p.pending.peek? i.caller.threadKey = none) :
    (p.exit s i retval).1 = none := by rw [exit_eq_of_none h]

/-- With a call of its thread, a return gives a record that reports it. -/
theorem exit_of_some (h : p.pending.peek? i.caller.threadKey = some call) :
    ∃ emission, (p.exit s i retval).1 = some emission ∧
      emission.event.Reports call.event retval := by
  rw [exit_eq_of_some h]
  exact ⟨_, rfl, reports_finish⟩

end Probe

/-! ### Calls one after another -/

/-- One call of a handler. -/
inductive Step
  | enter (s : Surroundings) (i : Invocation) (args : Arguments)
  | exit (s : Surroundings) (i : Invocation) (retval : Int64)
  | watch (inode : Inode)

/-- The thread on whose behalf a handler is called. -/
def Step.thread? : Step → Option Thread
  | .enter _ i _ => some i.caller.thread
  | .exit _ i _ => some i.caller.thread
  | .watch _ => none

namespace Probe

/-- The probe after one call. -/
def next (p : Probe) : Step → Probe
  | .enter s i args => p.enter s i args
  | .exit s i retval => (p.exit s i retval).2
  | .watch inode => (p.watch inode).2

/-- The record that a call gives: only a return may give one. -/
def emission? (p : Probe) : Step → Option Emission
  | .exit s i retval => (p.exit s i retval).1
  | _ => none

/-- The probe after some calls, whichever threads they come from. -/
def after (p : Probe) (steps : List Step) : Probe := steps.foldl next p

@[simp] theorem after_nil (p : Probe) : p.after [] = p := rfl

@[simp] theorem after_cons (p : Probe) (step : Step) (steps : List Step) :
    p.after (step :: steps) = (p.next step).after steps := rfl

theorem after_append (p : Probe) (steps steps' : List Step) :
    p.after (steps ++ steps') = (p.after steps).after steps' := List.foldl_append

theorem after_concat (p : Probe) (steps : List Step) (step : Step) :
    p.after (steps ++ [step]) = (p.after steps).next step := after_append p steps [step]

/-- At some point of a run, a step is of this kind. -/
def Sometime (kind : Probe → Step → Prop) (p : Probe) : List Step → Prop
  | [] => False
  | step :: steps => kind p step ∨ Sometime kind (p.next step) steps

theorem sometime_append {kind : Probe → Step → Prop} {p : Probe} {steps steps' : List Step} :
    Sometime kind p (steps ++ steps') ↔
      Sometime kind p steps ∨ Sometime kind (p.after steps) steps' := by
  induction steps generalizing p with
  | nil => simp [Sometime]
  | cons step steps ih =>
    rw [List.cons_append, Sometime, ih, Sometime, after_cons, or_assoc]

theorem sometime_concat {kind : Probe → Step → Prop} {p : Probe} {steps : List Step} {step : Step} :
    Sometime kind p (steps ++ [step]) ↔ Sometime kind p steps ∨ kind (p.after steps) step := by
  rw [sometime_append, Sometime, Sometime, or_false]

theorem exists_of_sometime {kind : Probe → Step → Prop} {p : Probe} {steps : List Step}
    (h : Sometime kind p steps) :
    ∃ before step rest, steps = before ++ step :: rest ∧ kind (p.after before) step := by
  induction steps generalizing p with
  | nil => exact h.elim
  | cons step steps ih =>
    rcases h with h | h
    · exact ⟨[], step, steps, rfl, h⟩
    · obtain ⟨before, later, rest, rfl, hlater⟩ := ih h
      exact ⟨step :: before, later, rest, rfl, hlater⟩

/-- Whether a step is an accepted start, as a number. -/
def admits (p : Probe) : Step → Nat
  | .enter s i args => if p.Accepts s i args then 1 else 0
  | _ => 0

/-- The number of accepted starts in a run. -/
def admitted (p : Probe) : List Step → Nat
  | [] => 0
  | step :: steps => p.admits step + admitted (p.next step) steps

/-- The key that has to make room when a call of this invocation is kept. -/
def victim (p : Probe) (i : Invocation) : Option Nat :=
  (p.pending.start i.caller.threadKey {}).1

/-- A step takes the room of a thread's call away. -/
def Evicts (t : Thread) (p : Probe) : Step → Prop
  | .enter s i args => p.Accepts s i args ∧ p.victim i = some t.key
  | _ => False

/-- A step ends the wait of a thread's call: it is a return of the thread, or another start that is
accepted in its place, or it takes its room away. -/
def Ends (t : Thread) (p : Probe) : Step → Prop
  | .enter s i args => p.Accepts s i args ∧ (i.caller.thread = t ∨ p.victim i = some t.key)
  | .exit _ i _ => i.caller.thread = t
  | .watch _ => False

end Probe

end FsTrace
