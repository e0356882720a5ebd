import FsTrace.Proofs.CoveredDirectories
import FsTrace.Proofs.SeparateThreads
import FsTrace.Proofs.WorkerAccounts
import FsTrace.Proofs.WorkerEntries

/-!
# Records of the calls of workers

Where all directories of a grown tree are watched, every call of a worker is in scope, since it is
about an entry in one of them. Its record is given when it returns.

* `WatchSet.Among`: a set has room for all inodes that come into question, so that none is dropped;
* `Simulation.Covering`: nothing is filtered, or all directories of the grown tree are watched and
  there is room for what is made. Then every call is accepted, `Covering.accepts`;
* `Simulation.Assured`: what holds all the time where there is room for all calls and all are in
  scope, with `Assured.advances`;
* `Simulation.InFlight`: the probe keeps the calls that are under way;
* `Simulation.told_run`: the records of a run are those of the calls that return in it, in order.
-/

namespace FsTrace

namespace WatchSet

variable {w : WatchSet} {keys : Finset Inode} {inodes : List Inode} {capacity : Nat}

/-- An inode that is watched already is not let in again. -/
theorem agrees_register_of_holds {inode : Inode} (h : w.Holds inode) :
    w.Agrees (w.register inode).2 := by
  have hagrees := w.agrees_watches inode
  have hfound : (w.watches inode).1 = true ↔ w.Watches inode := fst_watches
  unfold register
  split
  · exact .refl w
  · next hzero =>
    split
    · next hwatches =>
      rw [hwatches] at hagrees
      exact hagrees
    · next hwatches =>
      rw [hwatches] at hfound
      exact absurd (hfound.2 ⟨hzero, h⟩) Bool.false_ne_true

/-- The inodes of a set are among some for which it has room. -/
structure Among (w : WatchSet) (keys : Finset Inode) (capacity : Nat) : Prop where
  valid : w.inodes.Valid
  capacity_eq : w.inodes.capacity = capacity
  mem : ∀ inode, w.Holds inode → inode ∈ keys
  room : keys.card ≤ capacity

namespace Among

theorem size_le (h : w.Among keys capacity) : w.size ≤ keys.card := by
  rw [size, ← Table.length_items h.valid]
  refine Table.length_items_le h.valid fun item hitem => h.mem item.1 ?_
  rw [Holds, Table.peek?, Table.lookup_of_mem_items hitem]
  rfl

/-- Watching one of them drops none. -/
theorem register (h : w.Among keys capacity) {inode : Inode} (hinode : inode ∈ keys) :
    (w.register inode).2.Among keys capacity ∧
      ∀ i, (w.register inode).2.Holds i ↔ w.Holds i ∨ i ≠ 0 ∧ i = inode := by
  have hkept : (w.register inode).2.inodes.evictions = w.inodes.evictions ∧
      (w.register inode).2.inodes.capacity = w.inodes.capacity := by
    by_cases hheld : w.Holds inode
    · exact ⟨(agrees_register_of_holds hheld).evictions_eq,
        (agrees_register_of_holds hheld).capacity_eq⟩
    · -- the others are one less, so that there is room
      have hothers : w.Among (keys.erase inode) capacity :=
        ⟨h.valid, h.capacity_eq, fun i hi => Finset.mem_erase.2 ⟨fun heq => hheld (heq ▸ hi), h.mem i hi⟩,
          (Finset.card_le_card (Finset.erase_subset _ _)).trans h.room⟩
      have hroom : w.size < w.inodes.capacity :=
        (hothers.size_le.trans_lt (Finset.card_erase_lt_of_mem hinode)).trans_le
          (h.room.trans h.capacity_eq.ge)
      obtain ⟨hevictions, -, hcapacity⟩ := register_of_room hroom inode
      exact ⟨hevictions, hcapacity⟩
  have hholds : ∀ i, (w.register inode).2.Holds i ↔ w.Holds i ∨ i ≠ 0 ∧ i = inode :=
    fun i => holds_register hkept.1.le
  refine ⟨⟨(grows_register h.valid inode).valid, hkept.2.trans h.capacity_eq, fun i hi => ?_, h.room⟩,
    hholds⟩
  rcases (hholds i).1 hi with hi | ⟨-, rfl⟩
  · exact h.mem i hi
  · exact hinode

/-- Watching many of them drops none. -/
theorem registerAll (h : w.Among keys capacity) (hinodes : ∀ inode ∈ inodes, inode ∈ keys) :
    (inodes.foldl (fun w inode => (w.register inode).2) w).Among keys capacity ∧
      ∀ i ≠ 0, w.Holds i ∨ i ∈ inodes →
        (inodes.foldl (fun w inode => (w.register inode).2) w).Holds i := by
  induction inodes generalizing w with
  | nil => exact ⟨h, fun i _ hi => hi.resolve_right List.not_mem_nil⟩
  | cons inode inodes ih =>
    obtain ⟨hregister, hholds⟩ := h.register (hinodes inode List.mem_cons_self)
    obtain ⟨hall, hheld⟩ := ih hregister fun i hi => hinodes i (List.mem_cons_of_mem _ hi)
    refine ⟨hall, fun i hzero hi => hheld i hzero ?_⟩
    rw [hholds]
    rcases hi with hi | hi
    · exact Or.inl (Or.inl hi)
    · rcases List.mem_cons.1 hi with rfl | hi
      · exact Or.inl (Or.inr ⟨hzero, rfl⟩)
      · exact Or.inr hi

end Among

end WatchSet

namespace Simulation

open Probe

variable {s s' : Simulation} {m : Moment} {emission : Option Emission} {w : Worker}
  {others : List Worker} {config : Config} {calls : Nat} {base : Tree}

/-! ### What is in scope -/

/-- All directories of the grown tree are watched, and there is room for one inode more for each
call that is due. -/
structure Watching (base : Tree) (s : Simulation) : Prop where
  filtering : s.probe.modes.filtering = true
  holds : ∀ d ∈ s.grown.folders, s.probe.watched.Holds (base.accessor.inodeOf d)
  size_le : s.probe.watched.size + s.total (Worker.due s.operations) ≤
    s.probe.watched.inodes.capacity

theorem Watching.advances (h : s.Watching base) (hstep : s.Advances m emission s') :
    s'.Watching base := by
  cases hstep with
  | rests => exact h
  | begins w plan others hidle hbegun hplans hsame hturns htree hprobe =>
    have hagrees : s.probe.watched.Agrees s'.probe.watched := hprobe ▸ s.probe.agrees_enter _ _ _
    have htotal := hturns.total_eq (Worker.due s.operations)
    rw [Worker.due_begin hidle hbegun hplans.begun_eq] at htotal
    refine ⟨?_, fun d hd => ?_, ?_⟩
    · rw [hprobe]
      exact (congrArg (·.1.filtering) settings_next).trans h.filtering
    · rw [hagrees.holds_iff]
      exact h.holds d (hsame.grown_eq ▸ hd)
    · have hroom := h.size_le
      rw [hagrees.size_eq, hagrees.capacity_eq, hsame.operations_eq]
      omega
  | performs w operation others hphase hsame hturns htree hprobe =>
    have htotal := hturns.total_eq (Worker.due s.operations)
    rw [Worker.due_performed hphase] at htotal
    refine ⟨hprobe ▸ h.filtering, fun d hd => ?_, ?_⟩
    · rw [hprobe]
      exact h.holds d (hsame.grown_eq ▸ hd)
    · have hroom := h.size_le
      rw [hprobe, hsame.operations_eq]
      omega
  | completes w operation others hphase hsame hturns htree hprobe =>
    have htotal := hturns.total_eq (Worker.due s.operations)
    rw [Worker.due_idle hphase] at htotal
    have hroom := h.size_le
    have hperform := perform_of_room h.filtering (by omega)
      (.call (.exit (s.surroundings m) w.invocation operation.retval))
    rw [perform_call, ← hprobe] at hperform
    obtain ⟨hevictions, hsize, hcapacity⟩ := hperform
    refine ⟨?_, fun d hd => ?_, ?_⟩
    · rw [hprobe]
      exact (congrArg (·.1.filtering) settings_next).trans h.filtering
    · rw [hprobe] at hevictions ⊢
      exact (holds_next h.filtering hevictions.le).2 (Or.inl (h.holds d (hsame.grown_eq ▸ hd)))
    · rw [hcapacity, hsame.operations_eq]
      omega

/-- Every call that a worker begins is in scope: nothing is filtered, or all directories of the
grown tree are watched. -/
def Covering (base : Tree) (s : Simulation) : Prop :=
  s.probe.watched.enabled = false ∨ s.Watching base

theorem Covering.advances (h : s.Covering base) (hstep : s.Advances m emission s') :
    s'.Covering base := by
  refine h.imp (fun hdisabled => ?_) fun hwatching => hwatching.advances hstep
  cases hstep with
  | rests => exact hdisabled
  | performs w operation others hphase hsame hturns htree hprobe => rwa [hprobe]
  | begins w plan others hidle hbegun hplans hsame hturns htree hprobe =>
    rw [hprobe]
    exact (congrArg (·.2.2) settings_next).trans hdisabled
  | completes w operation others hphase hsame hturns htree hprobe =>
    rw [hprobe]
    exact (congrArg (·.2.2) settings_next).trans hdisabled

/-- What is in a directory of the grown tree is in scope. -/
theorem Covering.accepts (h : s.Covering base) (htallied : s.Tallied config calls)
    (hroomy : s.Roomy config) (howned : s'.Owned base) (hcomplete : s'.grown.Complete base)
    (hsame : s.Same s') {args : Arguments} (htraced : args.isTraced = true)
    (hsource : args.source ∈ s'.grown.files ∨ args.source ∈ s'.held) (i : Invocation) :
    s.probe.Accepts ⟨.still s'.tree.accessor, m.drawn⟩ i args := by
  have hkind : s.probe.modes.events.contains args.kind = true := by
    rw [htallied.tidy.modes_eq]
    exact hroomy.contains args.kind
  rcases h with hdisabled | hwatching
  · exact (accepts_iff_of_unfiltered hdisabled).2 ⟨hkind, htraced⟩
  · obtain ⟨folder, hfolder, hinode⟩ := howned.exists_folder hcomplete hsource
    obtain ⟨node, hnode⟩ := hcomplete.exists_of_folder folder hfolder
    have hlive : base.accessor.inodeOf folder ≠ 0 := by
      rw [Tree.inodeOf_of hnode]
      exact hcomplete.growing.inode_ne_zero folder node hnode
    exact accepts_of_holds hkind htraced hlive
      (hwatching.holds folder (hsame.grown_eq ▸ hfolder)) (Or.inr hinode)

/-! ### All that holds of a run -/

/-- What holds all the time where there is room for all calls, and all are in scope. -/
structure Assured (config : Config) (calls : Nat) (base : Tree) (s : Simulation) : Prop where
  tallied : s.Tallied config calls
  roomy : s.Roomy config
  complete : s.grown.Complete base
  owned : s.Owned base
  covering : s.Covering base
  filtered_eq : s.counter .filteredOut = 0

theorem Assured.accepts (h : s.Assured config calls base) {plan : Operation × Worker × Tree}
    (hidle : w.phase = .idle) (hplans : w.Plans s.tree s.grown plan) (hsame : s.Same s')
    (hturns : s.Turns w s' (plan.2.1.begin m.time plan.1) others) (htree : s'.tree = plan.2.2) :
    s.probe.Accepts ⟨.still s'.tree.accessor, m.drawn⟩
      (plan.2.1.begin m.time plan.1).invocation plan.1.args := by
  have howned := h.owned.begins hidle hplans hsame hturns htree
  have hsource : plan.1.args.source ∈ s'.grown.files ∨ plan.1.args.source ∈ s'.held := by
    rw [hsame.grown_eq]
    exact hplans.source_mem.imp_right fun hmem =>
      hturns.held_perm.2.mem_iff.2 (List.mem_append_left _ hmem)
  exact h.covering.accepts h.tallied h.roomy howned (hsame.grown_eq ▸ h.complete) hsame
    hplans.isTraced hsource _

theorem Assured.advances (h : s.Assured config calls base) (hstep : s.Advances m emission s') :
    s'.Assured config calls base := by
  have htallied := h.tallied.advances hstep
  have howned := h.owned.advances hstep
  have hcovering := h.covering.advances hstep
  cases hstep with
  | rests => exact h
  | begins w plan others hidle hbegun hplans hsame hturns htree hprobe =>
    have haccepts := h.accepts hidle hplans hsame hturns htree
    have hstarts := (hprobe ▸ effect_next h.tallied.tidy.watched _ :
      s.probe.Effect (.enter _ _ _) s'.probe.books).starts
    refine ⟨htallied, h.roomy.same hsame, hsame.grown_eq ▸ h.complete, howned, hcovering, ?_⟩
    have hbefore := h.filtered_eq
    simp only [counter] at hbefore
    simpa [counter, get_books, admits, haccepts, isTraced_of_accepts haccepts, hbefore] using hstarts
  | performs w operation others hphase hsame hturns htree hprobe =>
    refine ⟨htallied, h.roomy.same hsame, hsame.grown_eq ▸ h.complete, howned, hcovering, ?_⟩
    rw [counter, hprobe]
    exact h.filtered_eq
  | completes w operation others hphase hsame hturns htree hprobe =>
    have hstarts := (hprobe ▸ effect_next h.tallied.tidy.watched _ :
      s.probe.Effect (.exit _ _ _) s'.probe.books).starts
    refine ⟨htallied, h.roomy.same hsame, hsame.grown_eq ▸ h.complete, howned, hcovering, ?_⟩
    have hbefore := h.filtered_eq
    simp only [counter] at hbefore
    simpa [counter, get_books, admits, Step.isTraced, hbefore] using hstarts

/-! ### Calls and their records -/

/-- The probe keeps the calls that are under way, each under the key of its worker. -/
def InFlight (s : Simulation) : Prop :=
  ∀ w ∈ s.workers, ∀ operation, w.phase.operation? = some operation →
    ∃ call, s.probe.pending.peek? w.key = some call ∧ call.event.kind = operation.args.kind ∧
      call.event.caller = w.invocation.caller

theorem InFlight.advances (h : s.InFlight) (hassured : s.Assured config calls base)
    (hkeys : (s.workers.map Worker.key).Nodup) (hstep : s.Advances m emission s') :
    s'.InFlight := by
  cases hstep with
  | rests => exact h
  | begins w plan others hidle hbegun hplans hsame hturns htree hprobe =>
    have haccepts := hassured.accepts hidle hplans hsame hturns htree
    have hkey : (plan.2.1.begin m.time plan.1).invocation.caller.threadKey = w.key :=
      congrArg (·.caller.threadKey) hplans.invocation_eq
    obtain ⟨call, hkeeps, hpending⟩ := pending_enter_of_accepts haccepts
    have hnext : s'.probe.pending = (s.probe.pending.start w.key call).2 := by
      rw [hprobe, ← hkey]
      exact hpending
    intro u hu operation hoperation
    rcases hturns.mem_after.1 hu with rfl | hu
    · obtain rfl := Option.some.inj hoperation
      refine ⟨call, ?_, ?_, hkeeps.caller_captured⟩
      · rw [hnext, ← hkey]
        exact Table.peek?_insert_self _ _ _
      · obtain ⟨pathKey, hevent⟩ := hkeeps
        rw [hevent]
        exact Arguments.kind_captured _ _ _
    · obtain ⟨kept, hkept, hevent⟩ := h u (hturns.mem_before.2 (Or.inr hu)) operation hoperation
      have hvictim : (s.probe.pending.start w.key call).1 = none := by
        rw [← hkey, fst_start]
        exact hassured.tallied.victim_eq_none hassured.roomy (hturns.mem_before.2 (Or.inl rfl)) hkey
      refine ⟨kept, ?_, hevent⟩
      rw [hnext, ← hkept]
      exact Table.peek?_insert_of_ne (hturns.key_ne hkeys hu).symm
        (hvictim ▸ (Option.some_ne_none u.key).symm)
  | performs w operation others hphase hsame hturns htree hprobe =>
    intro u hu operation' hoperation
    rw [hprobe]
    rcases hturns.mem_after.1 hu with rfl | hu
    · exact h w (hturns.mem_before.2 (Or.inl rfl)) operation'
        ((congrArg Phase.operation? hphase).trans hoperation)
    · exact h u (hturns.mem_before.2 (Or.inr hu)) operation' hoperation
  | completes w operation others hphase hsame hturns htree hprobe =>
    have hpending : s'.probe.pending = (s.probe.pending.complete w.key).2 := hprobe ▸ pending_exit
    intro u hu operation' hoperation
    rcases hturns.mem_after.1 hu with rfl | hu
    · cases hoperation
    · obtain ⟨kept, hkept, hevent⟩ := h u (hturns.mem_before.2 (Or.inr hu)) operation' hoperation
      refine ⟨kept, ?_, hevent⟩
      rw [hpending, ← hkept]
      exact Table.peek?_remove_of_ne _ (hturns.key_ne hkeys hu).symm

/-- A record tells of a call: who made it, what it was, and what it returned. -/
structure Return.Told (call : Return) (e : Emission) : Prop where
  caller_eq : e.event.caller = call.caller
  kind_eq : e.event.kind = call.operation.args.kind
  retval_eq : e.event.retval = call.operation.retval

/-- A step gives the record of the call that returns. -/
theorem InFlight.told (h : s.InFlight) {index : Nat} (hmove : s.Moves m index emission s') :
    List.Forall₂ Return.Told (s.return? index).toList emission.toList := by
  cases hmove with
  | rests hrests =>
    cases hw : s.workers[index]? with
    | none =>
      rw [return?, hw]
      exact .nil
    | some w =>
      rw [return?_of hw, (hrests w hw).1]
      exact .nil
  | begins w plan hw hidle hbegun hplan =>
    rw [return?_of hw, hidle]
    exact .nil
  | performs w operation hw hphase =>
    rw [return?_of hw, hphase]
    exact .nil
  | completes w operation hw hphase =>
    obtain ⟨call, hcall, hkind, hcaller⟩ := h w (List.mem_of_getElem? hw) operation (by
      rw [hphase]
      rfl)
    obtain ⟨e, he, hreports⟩ : ∃ e,
        (s.probe.exit (s.surroundings m) w.invocation operation.retval).1 = some e ∧
          e.event.Reports call.event operation.retval := exit_of_some hcall
    rw [return?_of hw, hphase, he]
    exact .cons ⟨hreports.caller_eq.trans hcaller, hreports.kind_eq.trans hkind,
      hreports.retval_eq⟩ .nil

/-- The records of a run are those of the calls that return in it, in order. -/
theorem told_run (h : s.InFlight) (hassured : s.Assured config calls base)
    (hkeys : (s.workers.map Worker.key).Nodup) (schedule : List (Moment × Nat)) :
    List.Forall₂ Return.Told (s.returned schedule) (s.run schedule).1 := by
  induction schedule generalizing s with
  | nil => exact .nil
  | cons turn schedule ih =>
    have hmove := s.moves_step turn.1 turn.2
    have hstep := hmove.advances hassured.complete.usable
    exact List.rel_append (h.told hmove)
      (ih (h.advances hassured hkeys hstep) (hassured.advances hstep) (keys_nodup hkeys hstep))

end Simulation

end FsTrace
