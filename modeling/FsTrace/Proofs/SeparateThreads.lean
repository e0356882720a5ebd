import FsTrace.Proofs.Correlation
import FsTrace.Proofs.Emissions

/-!
# Threads apart

What a thread is told by the returns of its operations, whatever other threads do meanwhile, as long
as the table of the operations in flight has room for all of them.

* `ownSteps`: the calls of a thread, without those of all others; `Probe.replies`: what the calls of
  a thread give in a run;
* `Probe.pending_next_cases`: what a step can do to the operations in flight; `Probe.KeptAmong`:
  which threads they belong to; `Probe.not_evicts_of_few`: none of them has to make room;
* `Probe.outstanding_ownSteps`: the same start of a thread is outstanding with and without the
  others;
* `Probe.replies_ownSteps`: a thread gets the same records with and without the others.
-/

namespace FsTrace

/-- The calls on behalf of a thread, or of nobody. -/
def ownSteps (t : Thread) (steps : List Step) : List Step :=
  steps.filter fun step => step.thread?.all (· = t)

variable {step : Step} {steps : List Step} {t : Thread}

theorem ownSteps_concat :
    ownSteps t (steps ++ [step]) =
      ownSteps t steps ++ if step.thread?.all (· = t) then [step] else [] := by
  rw [ownSteps, List.filter_append, List.filter_singleton, cond_eq_ite]
  rfl

namespace Probe

variable {p q : Probe} {capacity : Nat} {s s' : Surroundings} {i i' : Invocation}
  {args args' : Arguments} {retval : Int64} {config : Config} {processors : Nat}

/-- What the calls of a thread give in a run, one after another. -/
def replies (p : Probe) (t : Thread) : List Step → List (Option Emission)
  | [] => []
  | step :: steps =>
    if step.thread? = some t then p.emission? step :: (p.next step).replies t steps
    else (p.next step).replies t steps

theorem replies_concat :
    p.replies t (steps ++ [step]) =
      p.replies t steps ++
        if step.thread? = some t then [(p.after steps).emission? step] else [] := by
  induction steps generalizing p with
  | nil => rfl
  | cons first steps ih =>
    rw [List.cons_append, replies, replies, ih, after_cons]
    split <;> rfl

/-! ### Without a filter -/

/-- Without a filter, what is accepted does not depend on the state. -/
theorem accepts_iff_of_unfiltered (h : p.watched.enabled = false) :
    p.Accepts s i args ↔ p.modes.events.contains args.kind = true ∧ args.isTraced = true := by
  have hscope : p.InScope (s.view 1) (args.captured (s.view 0) i.caller) := Or.inl (Or.inl h)
  rw [Accepts, and_iff_left hscope]

theorem unfiltered_after (h : p.watched.enabled = false) :
    (p.after steps).watched.enabled = false :=
  (congrArg (·.2.2) settings_after).trans h

/-- Without a filter, the same calls are accepted after all runs. -/
theorem accepts_after_congr (h : p.watched.enabled = false) (steps steps' : List Step) :
    (p.after steps).Accepts s i args ↔ (p.after steps').Accepts s i args := by
  rw [accepts_iff_of_unfiltered (unfiltered_after h),
    accepts_iff_of_unfiltered (unfiltered_after h), modes_after, modes_after]

/-- A thread's own call ends its wait whatever the others did. -/
theorem ends_congr (haccepts : ∀ s i args, p.Accepts s i args ↔ q.Accepts s i args)
    (hstep : step.thread?.all (· = t) = true) : Ends t p step ↔ Ends t q step := by
  cases step with
  | enter s i args =>
    have hthread : i.caller.thread = t := of_decide_eq_true hstep
    simp only [Ends, hthread, true_or, and_true]
    exact haccepts s i args
  | exit s i retval => rfl
  | watch inode => rfl

/-! ### Room for all -/

/-- A step leaves the operations in flight alone, or keeps a call of its thread, or takes it out. -/
theorem pending_next_cases (p : Probe) (step : Step) :
    (p.next step).pending = p.pending ∨ ∃ u, step.thread? = some u ∧
      ((∃ call, (p.next step).pending = (p.pending.start u.key call).2) ∨
        (p.next step).pending = (p.pending.complete u.key).2) := by
  cases step with
  | enter s i args =>
    by_cases haccepts : p.Accepts s i args
    · obtain ⟨call, -, hpending⟩ := pending_enter_of_accepts haccepts
      exact Or.inr ⟨i.caller.thread, rfl, Or.inl ⟨call, hpending⟩⟩
    · exact Or.inl (pending_enter_of_not_accepts haccepts)
  | exit s i retval => exact Or.inr ⟨i.caller.thread, rfl, Or.inr pending_exit⟩
  | watch inode => exact Or.inl rfl

/-- The operations in flight belong to some of these threads. -/
structure KeptAmong (p : Probe) (capacity : Nat) (among : Finset Thread) : Prop where
  valid : p.pending.Valid
  capacity_eq : p.pending.capacity = capacity
  mem_of_kept : ∀ key call, p.pending.peek? key = some call → ∃ u ∈ among, key = u.key

theorem keptAmong_new (hnew : Probe.new config processors = .ok p) :
    p.KeptAmong (max config.capacities.pendingCalls 1) ∅ where
  valid := (inTurn_new hnew).valid
  capacity_eq := (inTurn_new hnew).capacity_eq
  mem_of_kept key call hcall := by
    rw [peek?_of_new hnew] at hcall
    cases hcall

theorem KeptAmong.next {among : Finset Thread} (h : p.KeptAmong capacity among) (step : Step) :
    (p.next step).KeptAmong capacity (among ∪ threads [step]) := by
  have hold : ∀ key call, p.pending.peek? key = some call →
      ∃ u ∈ among ∪ threads [step], key = u.key := by
    intro key call hcall
    obtain ⟨u, hu, hkey⟩ := h.mem_of_kept key call hcall
    exact ⟨u, Finset.mem_union_left _ hu, hkey⟩
  rcases pending_next_cases p step with hsame | ⟨u, hu, ⟨call, hstart⟩ | hcomplete⟩
  · exact ⟨hsame ▸ h.valid, hsame ▸ h.capacity_eq, hsame ▸ hold⟩
  · refine ⟨hstart ▸ Table.valid_insert h.valid _ _,
      hstart ▸ (Table.capacity_insert _ _ _).trans h.capacity_eq, fun key call' hcall => ?_⟩
    rw [hstart] at hcall
    rcases Table.peek?_of_insert hcall with ⟨rfl, -⟩ | hcall
    · exact ⟨u, Finset.mem_union_right _ (thread_mem_threads List.mem_cons_self hu), rfl⟩
    · exact hold key call' hcall
  · refine ⟨hcomplete ▸ Table.valid_remove h.valid _,
      hcomplete ▸ (Table.capacity_remove _ _).trans h.capacity_eq, fun key call hcall => ?_⟩
    by_cases hkey : u.key = key
    · rw [hcomplete, PendingCalls.complete, hkey, Table.peek?_remove_self] at hcall
      cases hcall
    · rw [hcomplete] at hcall
      exact hold key call (Table.peek?_remove_of_ne _ hkey ▸ hcall)

theorem keptAmong_after (hnew : Probe.new config processors = .ok p) (steps : List Step) :
    (p.after steps).KeptAmong (max config.capacities.pendingCalls 1) (threads steps) := by
  induction steps using List.reverseRecOn with
  | nil => exact keptAmong_new hnew
  | append_singleton steps step ih =>
    rw [after_concat, threads_append]
    exact ih.next step

/-- Where there is room for the calls of all threads, none of them has to make room. -/
theorem not_evicts_of_few (hnew : Probe.new config processors = .ok p)
    (hcard : (threads (steps ++ [step])).card ≤ config.capacities.pendingCalls) :
    ¬ Evicts t (p.after steps) step := by
  intro hevicts
  cases step with
  | enter s i args =>
    obtain ⟨-, hvictim⟩ := hevicts
    have hkept := keptAmong_after hnew steps
    have hlast : Step.enter s i args ∈ steps ++ [.enter s i args] := by simp
    have hthread : i.caller.thread.key ∈ (threads (steps ++ [.enter s i args])).image Thread.key :=
      Finset.mem_image_of_mem _ (thread_mem_threads hlast rfl)
    have hkeys : ∀ item ∈ (p.after steps).pending.items,
        item.1 ∈ (threads (steps ++ [.enter s i args])).image Thread.key := by
      intro item hitem
      have hcall : (p.after steps).pending.peek? item.1 = some item.2.value := by
        rw [Table.peek?, Table.lookup_of_mem_items hitem, Option.map_some]
      obtain ⟨u, hu, hkey⟩ := hkept.mem_of_kept item.1 _ hcall
      exact hkey ▸ Finset.mem_image_of_mem _ (threads_subset_append hu)
    have hroom : ((threads (steps ++ [.enter s i args])).image Thread.key).card ≤
        (p.after steps).pending.capacity := by
      rw [hkept.capacity_eq]
      exact (Finset.card_image_le.trans hcard).trans (le_max_left _ _)
    rw [victim, PendingCalls.start, ← Caller.key_thread,
      Table.fst_insert_of_few hkept.valid hthread hkeys hroom] at hvictim
    cases hvictim
  | exit s i retval => exact hevicts
  | watch inode => exact hevicts

/-! ### With and without the others -/

/-- The same start of a thread is outstanding with and without the calls of the others. -/
theorem outstanding_ownSteps (hnew : Probe.new config processors = .ok p)
    (hfilter : config.filteringEnabled = false)
    (hcard : (threads steps).card ≤ config.capacities.pendingCalls) :
    p.Outstanding steps t s i args ↔ p.Outstanding (ownSteps t steps) t s i args := by
  have hunfiltered : p.watched.enabled = false := by
    rw [(fields_of_new hnew).2.2]
    exact hfilter
  induction steps using List.reverseRecOn with
  | nil => rfl
  | append_singleton steps step ih =>
    have hfewer : (threads steps).card ≤ config.capacities.pendingCalls :=
      (Finset.card_le_card threads_subset_append).trans hcard
    have haccepts : ∀ s i args, (p.after steps).Accepts s i args ↔
        (p.after (ownSteps t steps)).Accepts s i args :=
      fun s i args => accepts_after_congr hunfiltered steps (ownSteps t steps)
    have hbefore : p.Outstanding steps t s i args ↔
        p.Outstanding (ownSteps t steps) t s i args := ih hfewer
    rw [ownSteps_concat, outstanding_concat, hbefore]
    by_cases hown : step.thread?.all (· = t) = true
    · rw [if_pos hown, outstanding_concat, ends_congr haccepts hown, haccepts s i args]
    · -- a call of another thread neither ends the wait nor starts one
      have hother : step.thread? ≠ some t := fun hthread => hown (by simp [hthread])
      rw [if_neg hown, List.append_nil, or_iff_left, and_iff_left]
      · exact fun hends => not_evicts_of_few hnew hcard ((ends_iff_evicts hother).1 hends)
      · rintro ⟨rfl, hthread, -⟩
        exact hother (congrArg some hthread)

/-- A return of a thread gives the same with and without the calls of the others. -/
theorem exit_ownSteps (hnew : Probe.new config processors = .ok p)
    (hfilter : config.filteringEnabled = false)
    (hcard : (threads steps).card ≤ config.capacities.pendingCalls) :
    ((p.after steps).exit s i retval).1 =
      ((p.after (ownSteps i.caller.thread steps)).exit s i retval).1 := by
  have hempty : ∀ key, p.pending.peek? key = none := peek?_of_new hnew
  have hmode : p.modes.resolution = p.resolver.mode := by
    rw [resolver_of_new hnew, Resolver.mode_new, (fields_of_new hnew).1]
    rfl
  by_cases hsome : ∃ s₀ i₀ args, p.Outstanding steps i.caller.thread s₀ i₀ args
  · obtain ⟨s₀, i₀, args, houtstanding⟩ := hsome
    have hown := (outstanding_ownSteps hnew hfilter hcard).1 houtstanding
    rw [exit_of_outstanding s retval hmode houtstanding, exit_of_outstanding s retval hmode hown]
  · have hnone : ¬ ∃ s₀ i₀ args,
        p.Outstanding (ownSteps i.caller.thread steps) i.caller.thread s₀ i₀ args := by
      simpa only [outstanding_ownSteps hnew hfilter hcard] using hsome
    rw [Option.not_isSome_iff_eq_none.1 (mt (exit_isSome_iff hempty).1 hsome),
      Option.not_isSome_iff_eq_none.1 (mt (exit_isSome_iff hempty).1 hnone)]

/-- **Threads apart.** Without a filter, and with no more threads than the table of the operations
in flight has room for, the calls of a thread give the same records in a run as when all calls of
the other threads are left out. The calls of all threads come in any order and on any units, also
when returns or starts were never seen; each finds the tree as it is at its time. -/
theorem replies_ownSteps (hnew : Probe.new config processors = .ok p)
    (hfilter : config.filteringEnabled = false)
    (hcard : (threads steps).card ≤ config.capacities.pendingCalls) (t : Thread) :
    p.replies t steps = p.replies t (ownSteps t steps) := by
  induction steps using List.reverseRecOn with
  | nil => rfl
  | append_singleton steps step ih =>
    have hfewer : (threads steps).card ≤ config.capacities.pendingCalls :=
      (Finset.card_le_card threads_subset_append).trans hcard
    rw [replies_concat, ownSteps_concat, ih hfewer]
    by_cases hown : step.thread?.all (· = t) = true
    · rw [if_pos hown, replies_concat]
      congr 1
      split
      · next hthread =>
        cases step with
        | enter s i args => rfl
        | exit s i retval =>
          obtain rfl := Option.some.inj hthread
          exact congrArg ([·]) (exit_ownSteps hnew hfilter hfewer)
        | watch inode => cases hthread
      · rfl
    · have hother : step.thread? ≠ some t := fun hthread => hown (by simp [hthread])
      rw [if_neg hown, if_neg hother, List.append_nil, List.append_nil]

/-- Two threads of one process share a unit, and the table has room for two operations. While the
first thread opens an entry, the second starts to rename one, and its return is not seen. The first
gets one record, as it does without the second. -/
theorem replies_ownSteps_two :
    ∃ p e, Probe.new { filteringEnabled := false, capacities := { pendingCalls := 2 } } 1 = .ok p ∧
      p.replies (byThread 1).caller.thread [.enter plain (byThread 1) (.openFile ⟨0⟩ 1),
        .enter plain (byThread 2) (.rename ⟨5⟩ ⟨0⟩ ⟨6⟩), .exit plain (byThread 1) 3] =
          [none, some e] ∧
      p.replies (byThread 1).caller.thread
        [.enter plain (byThread 1) (.openFile ⟨0⟩ 1), .exit plain (byThread 1) 3] =
          [none, some e] ∧ e.event.retval = 3 := by
  obtain ⟨p, hnew⟩ : ∃ p, Probe.new
    { filteringEnabled := false, capacities := { pendingCalls := 2 } } 1 = .ok p := ⟨_, rfl⟩
  have hunfiltered : p.watched.enabled = false := by
    rw [(fields_of_new hnew).2.2]
    rfl
  have haccepts : p.Accepts plain (byThread 1) (.openFile ⟨0⟩ 1) := by
    rw [accepts_iff_of_unfiltered hunfiltered, (fields_of_new hnew).1]
    decide
  have houtstanding : p.Outstanding [.enter plain (byThread 1) (.openFile ⟨0⟩ 1)]
      (byThread 1).caller.thread plain (byThread 1) (.openFile ⟨0⟩ 1) :=
    ⟨[], [], rfl, rfl, haccepts, id⟩
  have hreturn : ∃ e, ((p.after [.enter plain (byThread 1) (.openFile ⟨0⟩ 1)]).exit plain
      (byThread 1) 3).1 = some e ∧ e.event.Reports _ 3 := reports_of_outstanding houtstanding
  obtain ⟨e, hexit, hreports⟩ := hreturn
  have halone : p.replies (byThread 1).caller.thread
      [.enter plain (byThread 1) (.openFile ⟨0⟩ 1), .exit plain (byThread 1) 3] =
        [none, some e] := congrArg ([none, ·]) hexit
  refine ⟨p, e, hnew, ?_, halone, hreports.retval_eq⟩
  rw [replies_ownSteps hnew rfl (by decide)]
  exact halone

end Probe

end FsTrace
