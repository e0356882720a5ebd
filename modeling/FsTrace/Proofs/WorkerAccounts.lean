import FsTrace.Proofs.CallAccounts
import FsTrace.Proofs.WorkerSteps

/-!
# What becomes of the calls of workers

Each call that a worker begins is seen by the probe once when it starts and once when it returns.

* `Simulation.Tallied`: every call that returned was emitted or is counted as one whose start is not
  known, and only calls that are under way are in flight;
* `Simulation.Roomy`: all kinds are traced, and the table of the calls in flight has room for one
  call of each worker; then none has to make room, `Tallied.evicted_eq`;
* `Simulation.Balanced`: every call that began was emitted, was filtered out or is in flight. This
  takes that the workers have keys of their own.
-/

namespace FsTrace

namespace Probe

variable {p : Probe} {step : Step} {b : Books}

/-- Whether a start that is accepted takes the room of another call, as a number. -/
def crowdsOut (p : Probe) : Step → Nat
  | .enter s i args => if p.Accepts s i args then (p.victim i).isSome.toNat else 0
  | _ => 0

/-- Each call that had to make room is counted. -/
theorem Effect.evictions (h : p.Effect step b) :
    b.counters.get .pendingEvicted = p.counters.get .pendingEvicted + p.crowdsOut step := by
  cases h with
  | ignored s i args h => simp [get_books, crowdsOut, mt isTraced_of_accepts h]
  | filtered s i args watched htraced h =>
    simp [get_books, Counters.get_increment, crowdsOut, h]
  | kept s i args watched call h => simp [get_books, Counters.get_incrementIf, crowdsOut, h]
  | unmatched => simp [get_books, Counters.get_increment, crowdsOut]
  | completed =>
    simp [get_books, Counters.get_increment, Counters.get_incrementIf, crowdsOut]
  | watched => rfl

/-- A start leaves the calls in flight alone, or keeps one of its thread. -/
theorem pending_enter_cases (p : Probe) (s : Surroundings) (i : Invocation) (args : Arguments) :
    (p.next (.enter s i args)).pending = p.pending ∨
      ∃ call, (p.next (.enter s i args)).pending =
        (p.pending.start i.caller.threadKey call).2 := by
  by_cases haccepts : p.Accepts s i args
  · obtain ⟨call, -, hpending⟩ := pending_enter_of_accepts haccepts
    exact Or.inr ⟨call, hpending⟩
  · exact Or.inl (pending_enter_of_not_accepts haccepts)

end Probe

namespace Simulation

open Probe

variable {s s' : Simulation} {m : Moment} {emission : Option Emission} {w : Worker}
  {others : List Worker} {config : Config} {calls : Nat}

/-- The value of a counter. -/
def counter (s : Simulation) (c : Counter) : Nat := s.probe.counters.get c

theorem total_eq_zero {f : Worker → Nat} (h : ∀ w ∈ s.workers, f w = 0) : s.total f = 0 := by
  refine List.sum_eq_zero fun n hn => ?_
  obtain ⟨w, hw, rfl⟩ := List.mem_map.1 hn
  exact h w hw

/-! ### Calls that return -/

/-- Of so many calls, each that returned was emitted or is counted as one whose start is not known.
The calls in flight are calls of workers that are under way. -/
structure Tallied (config : Config) (calls : Nat) (s : Simulation) : Prop where
  tidy : s.probe.Tidy (.ofConfig config)
  capacity_eq : s.probe.pending.capacity = max config.capacities.pendingCalls 1
  under_way : ∀ key call, s.probe.pending.peek? key = some call →
    ∃ w ∈ s.workers, w.phase ≠ .idle ∧ w.key = key
  returns_eq : s.counter .eventsEmitted + s.counter .missingCorrelation +
    s.total (Worker.due s.operations) = calls

/-- A worker that is under way stays so, unless it is the one that took the step. -/
theorem Turns.exists_under_way {w' : Worker} (hturns : s.Turns w s' w' others) {key : Nat}
    (h : ∃ u ∈ s.workers, u.phase ≠ .idle ∧ u.key = key)
    (hw : w.phase ≠ .idle → w.key = key → w'.phase ≠ .idle ∧ w'.key = key) :
    ∃ u ∈ s'.workers, u.phase ≠ .idle ∧ u.key = key := by
  obtain ⟨u, hu, hphase, hkey⟩ := h
  rcases hturns.mem_before.1 hu with rfl | hu
  · exact ⟨w', hturns.mem_after.2 (Or.inl rfl), hw hphase hkey⟩
  · exact ⟨u, hturns.mem_after.2 (Or.inr hu), hphase, hkey⟩

namespace Tallied

theorem advances (h : s.Tallied config calls) (hstep : s.Advances m emission s') :
    s'.Tallied config calls := by
  cases hstep with
  | rests => exact h
  | begins w plan others hidle hbegun hplans hsame hturns htree hprobe =>
    -- the worker was idle, so that a call in flight is that of another one
    have hothers : ∀ key call, s.probe.pending.peek? key = some call →
        ∃ u ∈ s'.workers, u.phase ≠ .idle ∧ u.key = key := fun key call hcall =>
      hturns.exists_under_way (h.under_way key call hcall) fun hphase _ => absurd hidle hphase
    have hreturns := (hprobe ▸ effect_next h.tidy.watched _ :
      s.probe.Effect (.enter _ _ _) s'.probe.books).returns
    have htotal := hturns.total_eq (Worker.due s.operations)
    rw [Worker.due_begin hidle hbegun hplans.begun_eq] at htotal
    refine ⟨hprobe ▸ h.tidy.next _, ?_, ?_, ?_⟩
    · rw [hprobe, ← h.capacity_eq]
      rcases s.probe.pending_enter_cases _ _ _ with hsame | ⟨call, hstart⟩
      · rw [hsame]
      · rw [hstart]
        exact Table.capacity_insert _ _ _
    · rw [hprobe]
      intro key call hcall
      rcases s.probe.pending_enter_cases _ _ _ with hsame | ⟨started, hstart⟩
      · exact hothers key call (hsame ▸ hcall)
      · rw [hstart] at hcall
        rcases Table.peek?_of_insert hcall with ⟨rfl, -⟩ | hcall
        · exact ⟨_, hturns.mem_after.2 (Or.inl rfl), Phase.noConfusion, rfl⟩
        · exact hothers key call hcall
    · rw [← h.returns_eq, hsame.operations_eq]
      simp only [get_books, ne_eq, reduceCtorEq, not_false_eq_true, Step.isReturn,
        Bool.toNat_false] at hreturns
      simp only [counter]
      omega
  | performs w operation others hphase hsame hturns htree hprobe =>
    have htotal := hturns.total_eq (Worker.due s.operations)
    rw [Worker.due_performed hphase] at htotal
    refine ⟨hprobe ▸ h.tidy, hprobe ▸ h.capacity_eq, ?_, ?_⟩
    · rw [hprobe]
      exact fun key call hcall => hturns.exists_under_way (h.under_way key call hcall)
        fun _ hkey => ⟨Phase.noConfusion, hkey⟩
    · rw [← h.returns_eq, hsame.operations_eq]
      simp only [counter, hprobe]
      omega
  | completes w operation others hphase hsame hturns htree hprobe =>
    have hreturns := (hprobe ▸ effect_next h.tidy.watched _ :
      s.probe.Effect (.exit _ _ _) s'.probe.books).returns
    have htotal := hturns.total_eq (Worker.due s.operations)
    rw [Worker.due_idle hphase] at htotal
    have hpending : s'.probe.pending = (s.probe.pending.complete w.key).2 :=
      hprobe ▸ pending_exit
    refine ⟨hprobe ▸ h.tidy.next _, ?_, ?_, ?_⟩
    · rw [hpending, ← h.capacity_eq]
      exact Table.capacity_remove _ _
    · -- the call of this worker is taken out
      intro key call hcall
      rw [hpending] at hcall
      have hne : w.key ≠ key := by
        rintro rfl
        rw [PendingCalls.complete, Table.peek?_remove_self] at hcall
        cases hcall
      rw [PendingCalls.complete, Table.peek?_remove_of_ne _ hne] at hcall
      exact hturns.exists_under_way (h.under_way key call hcall) fun _ hkey => absurd hkey hne
    · rw [← h.returns_eq, hsame.operations_eq]
      simp only [get_books, ne_eq, reduceCtorEq, not_false_eq_true, Step.isReturn,
        Bool.toNat_true] at hreturns
      simp only [counter]
      omega

/-- When all calls have returned, they are accounted for, and none is in flight. -/
theorem at_rest (h : s.Tallied config calls)
    (hrest : ∀ w ∈ s.workers, w.left s.operations = 0) :
    s.counter .eventsEmitted + s.counter .missingCorrelation = calls ∧
      s.probe.pending.size = 0 := by
  have hdue : s.total (Worker.due s.operations) = 0 :=
    total_eq_zero fun w hw => Worker.due_eq_zero (hrest w hw)
  refine ⟨by rw [← h.returns_eq, hdue, Nat.add_zero], ?_⟩
  rw [← Table.length_items h.tidy.pending, List.length_eq_zero_iff]
  refine List.eq_nil_iff_forall_not_mem.2 fun item hitem => ?_
  have hcall : s.probe.pending.peek? item.1 = some item.2.value := by
    rw [Table.peek?, Table.lookup_of_mem_items hitem, Option.map_some]
  obtain ⟨w, hw, hphase, -⟩ := h.under_way item.1 _ hcall
  exact hphase (Worker.left_eq_zero_iff.1 (hrest w hw)).1

end Tallied

/-! ### Room for all calls -/

/-- All kinds are traced, and there is room for one call of each worker. -/
structure Roomy (config : Config) (s : Simulation) : Prop where
  enabled : ∀ kind, kind ∈ config.enabledKinds.1
  room : s.workers.length ≤ config.capacities.pendingCalls

theorem Roomy.contains (h : s.Roomy config) (kind : Kind) :
    (Modes.ofConfig config).events.contains kind = true :=
  (KindSet.contains_ofList _ _).mpr (h.enabled kind)

theorem Roomy.same (h : s.Roomy config) (hsame : s.Same s') : s'.Roomy config :=
  ⟨h.enabled, hsame.length_eq ▸ h.room⟩

namespace Tallied

/-- Where there is room for one call of each worker, none has to make room. -/
theorem victim_eq_none (h : s.Tallied config calls) (hroomy : s.Roomy config) (hw : w ∈ s.workers)
    {i : Invocation} (hi : i.caller.threadKey = w.key) : s.probe.victim i = none := by
  have hkeys : ∀ item ∈ s.probe.pending.items, item.1 ∈ (s.workers.map Worker.key).toFinset := by
    intro item hitem
    have hcall : s.probe.pending.peek? item.1 = some item.2.value := by
      rw [Table.peek?, Table.lookup_of_mem_items hitem, Option.map_some]
    obtain ⟨u, hu, -, hkey⟩ := h.under_way item.1 _ hcall
    exact List.mem_toFinset.2 (hkey ▸ List.mem_map_of_mem hu)
  have hcard : (s.workers.map Worker.key).toFinset.card ≤ s.probe.pending.capacity :=
    calc (s.workers.map Worker.key).toFinset.card
        ≤ (s.workers.map Worker.key).length := List.toFinset_card_le _
      _ ≤ config.capacities.pendingCalls := by rw [List.length_map]; exact hroomy.room
      _ ≤ s.probe.pending.capacity := by rw [h.capacity_eq]; exact le_max_left _ _
  rw [victim, PendingCalls.start, hi]
  exact Table.fst_insert_of_few h.tidy.pending (List.mem_toFinset.2 (List.mem_map_of_mem hw)) hkeys
    hcard _

theorem evicted_eq (h : s.Tallied config calls) (hroomy : s.Roomy config)
    (hstep : s.Advances m emission s') :
    s'.counter .pendingEvicted = s.counter .pendingEvicted := by
  cases hstep with
  | rests => rfl
  | begins w plan others hidle hbegun hplans hsame hturns htree hprobe =>
    have hevictions := (hprobe ▸ effect_next h.tidy.watched _ :
      s.probe.Effect (.enter _ _ _) s'.probe.books).evictions
    have hvictim : s.probe.victim (plan.2.1.begin m.time plan.1).invocation = none :=
      h.victim_eq_none hroomy (hturns.mem_before.2 (Or.inl rfl))
        (congrArg (·.caller.threadKey) hplans.invocation_eq)
    simpa [counter, get_books, crowdsOut, hvictim] using hevictions
  | performs w operation others hphase hsame hturns htree hprobe => rw [counter, hprobe, counter]
  | completes w operation others hphase hsame hturns htree hprobe =>
    have hevictions := (hprobe ▸ effect_next h.tidy.watched _ :
      s.probe.Effect (.exit _ _ _) s'.probe.books).evictions
    simpa [counter, get_books, crowdsOut] using hevictions

end Tallied

/-! ### Calls that begin -/

/-- Of so many calls, each that began was emitted, was filtered out or is in flight. -/
structure Balanced (calls : Nat) (s : Simulation) : Prop where
  evicted_eq : s.counter .pendingEvicted = 0
  starts_eq : s.counter .eventsEmitted + s.counter .filteredOut + s.probe.pending.size +
    s.total (Worker.unbegun s.operations) = calls

/-- Where the workers have keys of their own, no call of an idle worker is in flight. -/
theorem Tallied.peek?_eq_none (h : s.Tallied config calls)
    (hkeys : (s.workers.map Worker.key).Nodup) {w' : Worker} (hturns : s.Turns w s' w' others)
    (hidle : w.phase = .idle) : s.probe.pending.peek? w.key = none := by
  by_contra hcall
  obtain ⟨call, hcall⟩ := Option.ne_none_iff_exists'.1 hcall
  obtain ⟨u, hu, hphase, hkey⟩ := h.under_way w.key call hcall
  rcases hturns.mem_before.1 hu with rfl | hu
  · exact hphase hidle
  · exact hturns.key_ne hkeys hu hkey

theorem Balanced.advances (h : s.Balanced calls) (htallied : s.Tallied config calls)
    (hroomy : s.Roomy config) (hkeys : (s.workers.map Worker.key).Nodup)
    (hstep : s.Advances m emission s') : s'.Balanced calls := by
  have hevicted := (htallied.evicted_eq hroomy hstep).trans h.evicted_eq
  refine ⟨hevicted, ?_⟩
  cases hstep with
  | rests => exact h.starts_eq
  | begins w plan others hidle hbegun hplans hsame hturns htree hprobe =>
    have heffect : s.probe.Effect (.enter ⟨.still s'.tree.accessor, m.drawn⟩
        (plan.2.1.begin m.time plan.1).invocation plan.1.args) s'.probe.books :=
      hprobe ▸ effect_next htallied.tidy.watched _
    have hstarts := heffect.starts
    have hcalls := heffect.calls htallied.tidy.pending
    have htraced : (Step.enter ⟨.still s'.tree.accessor, m.drawn⟩
        (plan.2.1.begin m.time plan.1).invocation plan.1.args).isTraced s.probe.modes = true := by
      rw [Step.isTraced, htallied.tidy.modes_eq, hroomy.contains, hplans.isTraced]
      rfl
    have hkey : (plan.2.1.begin m.time plan.1).invocation.caller.threadKey = w.key :=
      congrArg (·.caller.threadKey) hplans.invocation_eq
    have hoverwrites : s.probe.overwrites (.enter ⟨.still s'.tree.accessor, m.drawn⟩
        (plan.2.1.begin m.time plan.1).invocation plan.1.args) = 0 := by
      rw [overwrites, hkey, htallied.peek?_eq_none hkeys hturns hidle]
      exact ite_self 0
    have htotal := hturns.total_eq (Worker.unbegun s.operations)
    have hunbegun : (plan.2.1.begin m.time plan.1).unbegun s.operations + 1 =
        w.unbegun s.operations := by
      simp only [Worker.unbegun, Worker.begin, hplans.begun_eq]
      omega
    rw [← h.starts_eq, hsame.operations_eq]
    have hbefore := h.evicted_eq
    simp only [counter] at hevicted hbefore
    rw [htraced] at hstarts
    rw [hoverwrites] at hcalls
    simp only [get_books, ne_eq, reduceCtorEq, not_false_eq_true, Bool.toNat_true, hevicted,
      hbefore, pending_books] at hstarts hcalls
    simp only [counter]
    omega
  | performs w operation others hphase hsame hturns htree hprobe =>
    have htotal := hturns.total_eq (Worker.unbegun s.operations)
    have hunbegun : { w with phase := .performed operation }.unbegun s.operations =
        w.unbegun s.operations := rfl
    rw [← h.starts_eq, hsame.operations_eq]
    simp only [counter, hprobe]
    omega
  | completes w operation others hphase hsame hturns htree hprobe =>
    have heffect : s.probe.Effect (.exit (s.surroundings m) w.invocation operation.retval)
        s'.probe.books := hprobe ▸ effect_next htallied.tidy.watched _
    have hstarts := heffect.starts
    have hcalls := heffect.calls htallied.tidy.pending
    have htotal := hturns.total_eq (Worker.unbegun s.operations)
    have hunbegun : { w with phase := .idle }.unbegun s.operations = w.unbegun s.operations := rfl
    rw [← h.starts_eq, hsame.operations_eq]
    have hbefore := h.evicted_eq
    simp only [counter] at hevicted hbefore
    simp only [get_books, ne_eq, reduceCtorEq, not_false_eq_true, hevicted, hbefore, admits,
      overwrites, Step.isTraced, Bool.toNat_false, pending_books] at hstarts hcalls
    simp only [counter]
    omega

/-- When all calls have returned, each was emitted or filtered out. -/
theorem Balanced.at_rest (h : s.Balanced calls) (hsize : s.probe.pending.size = 0)
    (hrest : ∀ w ∈ s.workers, w.left s.operations = 0) :
    s.counter .eventsEmitted + s.counter .filteredOut = calls := by
  have hunbegun : s.total (Worker.unbegun s.operations) = 0 :=
    total_eq_zero fun w hw => Nat.sub_eq_zero_of_le (Worker.left_eq_zero_iff.1 (hrest w hw)).2
  rw [← h.starts_eq, hsize, hunbegun, Nat.add_zero]

/-- The keys of the workers stay as they are. -/
theorem keys_nodup (hkeys : (s.workers.map Worker.key).Nodup) (hstep : s.Advances m emission s') :
    (s'.workers.map Worker.key).Nodup := by
  cases hstep with
  | rests => exact hkeys
  | begins w plan others hidle hbegun hplans hsame hturns htree hprobe =>
    exact (hturns.keys_perm (congrArg (·.caller.threadKey) hplans.invocation_eq)).nodup_iff.2 hkeys
  | performs w operation others hphase hsame hturns htree hprobe =>
    exact (hturns.keys_perm rfl).nodup_iff.2 hkeys
  | completes w operation others hphase hsame hturns htree hprobe =>
    exact (hturns.keys_perm rfl).nodup_iff.2 hkeys

end Simulation

end FsTrace
