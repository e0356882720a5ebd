import FsTrace.Proofs.HandlerCalls

/-!
# Calls that wait for their return

Which start a return reports, in any run of handler calls: also one in which returns were never
seen, so that a thread starts an operation while an earlier one of it still waits.

* `Probe.Outstanding`: the start of an operation that was accepted, and whose wait nothing ended;
* `Probe.exit_isSome_iff`, `Probe.reports_of_outstanding`: a return gives a record just when its
  thread has an outstanding start, and then one of that start;
* `LastStart`: what a thread did last is the start of an operation;
* `Probe.exit_after_rejected`: when a return gives a record although the last start of its thread
  was not accepted.
-/

namespace FsTrace

/-- What a thread did last in a run is this start, with steps of others after it. -/
structure LastStart (steps : List Step) (t : Thread) (before : List Step) (s : Surroundings)
    (i : Invocation) (args : Arguments) (between : List Step) : Prop where
  split : steps = before ++ .enter s i args :: between
  thread_eq : i.caller.thread = t
  others : ∀ step ∈ between, step.thread? ≠ some t

namespace Probe

variable {p : Probe} {step : Step} {steps : List Step} {t : Thread} {s s' : Surroundings}
  {i i' : Invocation} {args : Arguments} {retval : Int64} {call : PendingCall}

theorem fst_start (call : PendingCall) :
    (p.pending.start i.caller.threadKey call).1 = p.victim i :=
  Table.fst_insert _ _ _ _

theorem threadKey_eq_iff : i.caller.threadKey = t.key ↔ i.caller.thread = t :=
  Thread.key_inj (t := i.caller.thread)

/-! ### One step -/

/-- A step that does not end the wait of a thread leaves its call alone. -/
theorem peek?_next_of_not_ends (h : ¬ Ends t p step) :
    (p.next step).pending.peek? t.key = p.pending.peek? t.key := by
  cases step with
  | enter s i args =>
    by_cases haccepts : p.Accepts s i args
    · obtain ⟨call, -, hpending⟩ := pending_enter_of_accepts haccepts
      have hthread : i.caller.threadKey ≠ t.key :=
        fun hkey => h ⟨haccepts, Or.inl (threadKey_eq_iff.1 hkey)⟩
      have hroom : (p.pending.start i.caller.threadKey call).1 ≠ some t.key :=
        fun hvictim => h ⟨haccepts, Or.inr (fst_start call ▸ hvictim)⟩
      rw [next, hpending]
      exact Table.peek?_insert_of_ne hthread hroom
    · rw [next, pending_enter_of_not_accepts haccepts]
  | exit s i retval =>
    rw [next, pending_exit]
    exact Table.peek?_remove_of_ne _ fun hkey => h (threadKey_eq_iff.1 hkey)
  | watch inode => rfl

/-- After a step that ends the wait of a thread, the call kept for it is that of the step. -/
theorem peek?_next_of_ends (h : Ends t p step) :
    (∃ s i args call, step = .enter s i args ∧ i.caller.thread = t ∧ p.Accepts s i args ∧
      call.Keeps (args.captured (s.view 0) i.caller).event ∧
      (p.next step).pending.peek? t.key = some call) ∨
    (p.next step).pending.peek? t.key = none := by
  cases step with
  | enter s i args =>
    obtain ⟨haccepts, hends⟩ := h
    obtain ⟨call, hkeeps, hpending⟩ := pending_enter_of_accepts haccepts
    by_cases hthread : i.caller.thread = t
    · refine Or.inl ⟨s, i, args, call, rfl, hthread, haccepts, hkeeps, ?_⟩
      rw [next, hpending, ← hthread]
      exact Table.peek?_insert_self _ _ _
    · have hroom : (p.pending.start i.caller.threadKey call).1 = some t.key :=
        (fst_start call).trans (hends.resolve_left hthread)
      refine Or.inr ?_
      rw [next, hpending]
      exact Table.peek?_of_insert_evicts (fun hkey => hthread (threadKey_eq_iff.1 hkey)) hroom
  | exit s i retval =>
    refine Or.inr ?_
    rw [next, pending_exit, ← threadKey_eq_iff.2 h]
    exact Table.peek?_remove_self _ _
  | watch inode => exact h.elim

/-! ### A whole run -/

/-- The start of an operation is outstanding: it was accepted, and nothing ended its wait since. -/
def Outstanding (p : Probe) (steps : List Step) (t : Thread) (s : Surroundings) (i : Invocation)
    (args : Arguments) : Prop :=
  ∃ before between, steps = before ++ .enter s i args :: between ∧ i.caller.thread = t ∧
    (p.after before).Accepts s i args ∧
    ¬ Sometime (Ends t) (p.after (before ++ [.enter s i args])) between

theorem not_outstanding_nil : ¬ p.Outstanding [] t s i args := by
  rintro ⟨before, between, hsplit, -⟩
  simp at hsplit

/-- What is outstanding after one more step. -/
theorem outstanding_concat :
    p.Outstanding (steps ++ [step]) t s i args ↔
      p.Outstanding steps t s i args ∧ ¬ Ends t (p.after steps) step ∨
        step = .enter s i args ∧ i.caller.thread = t ∧ (p.after steps).Accepts s i args := by
  constructor
  · rintro ⟨before, between, hsplit, hthread, haccepts, hwaits⟩
    rcases List.eq_nil_or_concat between with rfl | ⟨between, last, rfl⟩
    · obtain ⟨rfl, hstep⟩ := List.append_inj' hsplit rfl
      exact Or.inr ⟨(List.cons.inj hstep).1, hthread, haccepts⟩
    · rw [List.concat_eq_append, ← List.cons_append, ← List.append_assoc] at hsplit
      obtain ⟨rfl, hstep⟩ := List.append_inj' hsplit rfl
      obtain rfl := (List.cons.inj hstep).1
      rw [List.concat_eq_append, sometime_concat, not_or, ← after_append, List.append_assoc,
        List.singleton_append] at hwaits
      exact Or.inl ⟨⟨before, between, rfl, hthread, haccepts, hwaits.1⟩, hwaits.2⟩
  · rintro (⟨⟨before, between, rfl, hthread, haccepts, hwaits⟩, hlast⟩ | ⟨rfl, hthread, haccepts⟩)
    · refine ⟨before, between ++ [step], by simp, hthread, haccepts, ?_⟩
      rw [sometime_concat, not_or, ← after_append, List.append_assoc, List.singleton_append]
      exact ⟨hwaits, hlast⟩
    · exact ⟨steps, [], rfl, hthread, haccepts, id⟩

/-- The call of an outstanding start is kept. -/
theorem kept_of_outstanding (h : p.Outstanding steps t s i args) :
    ∃ call, (p.after steps).pending.peek? t.key = some call ∧
      call.Keeps (args.captured (s.view 0) i.caller).event := by
  -- from the end: what is outstanding now was so before the last step, or is that step
  induction steps using List.reverseRecOn with
  | nil => exact absurd h not_outstanding_nil
  | append_singleton steps step ih =>
    rw [after_concat]
    rcases outstanding_concat.1 h with ⟨hbefore, hends⟩ | ⟨rfl, rfl, haccepts⟩
    · rw [peek?_next_of_not_ends hends]
      exact ih hbefore
    · obtain ⟨call, hkeeps, hpending⟩ := pending_enter_of_accepts haccepts
      refine ⟨call, ?_, hkeeps⟩
      rw [next, hpending]
      exact Table.peek?_insert_self _ _ _

/-- A call that is kept is that of an outstanding start. -/
theorem exists_outstanding (hempty : ∀ key, p.pending.peek? key = none)
    (h : (p.after steps).pending.peek? t.key = some call) :
    ∃ s i args, p.Outstanding steps t s i args := by
  induction steps using List.reverseRecOn generalizing call with
  | nil =>
    rw [after_nil, hempty] at h
    cases h
  | append_singleton steps step ih =>
    rw [after_concat] at h
    by_cases hends : Ends t (p.after steps) step
    · rcases peek?_next_of_ends hends with ⟨s, i, args, _, rfl, hthread, haccepts, -⟩ | hnone
      · exact ⟨s, i, args, outstanding_concat.2 (Or.inr ⟨rfl, hthread, haccepts⟩)⟩
      · rw [hnone] at h
        cases h
    · rw [peek?_next_of_not_ends hends] at h
      obtain ⟨s, i, args, hbefore⟩ := ih h
      exact ⟨s, i, args, outstanding_concat.2 (Or.inl ⟨hbefore, hends⟩)⟩

theorem eq_of_new {config : Config} {processors : Nat}
    (hnew : Probe.new config processors = .ok p) :
    p = {
      modes := .ofConfig config
      scratch := .new (config.units processors)
      pending := .new config.capacities.pendingCalls
      watched := .new config.filteringEnabled config.capacities.inodeFilter
      resolver := .new config.capacities config.resolutionMode
      counters := {} } := by
  unfold Probe.new at hnew
  cases hvalid : config.validate with
  | error e =>
    rw [hvalid] at hnew
    cases hnew
  | ok =>
    rw [hvalid] at hnew
    exact (Except.ok.inj hnew).symm

theorem fields_of_new {config : Config} {processors : Nat}
    (hnew : Probe.new config processors = .ok p) :
    p.modes = .ofConfig config ∧ p.pending = .new config.capacities.pendingCalls ∧
      p.watched = .new config.filteringEnabled config.capacities.inodeFilter := by
  rw [eq_of_new hnew]
  exact ⟨rfl, rfl, rfl⟩

/-- In a new probe no operation is in flight. -/
theorem peek?_of_new {config : Config} {processors : Nat}
    (hnew : Probe.new config processors = .ok p) (key : Nat) : p.pending.peek? key = none := by
  rw [(fields_of_new hnew).2.1]
  exact Table.peek?_new _ _

/-! ### Returns -/

/-- A return reports the outstanding start of its thread. -/
theorem reports_of_outstanding (h : p.Outstanding steps i.caller.thread s' i' args) :
    ∃ emission, ((p.after steps).exit s i retval).1 = some emission ∧
      emission.event.Reports (args.captured (s'.view 0) i'.caller).event retval := by
  obtain ⟨call, hcall, hkeeps⟩ := kept_of_outstanding h
  obtain ⟨emission, hemission, hreports⟩ := exit_of_some hcall
  exact ⟨emission, hemission, hkeeps.reports hreports⟩

/-- A return gives a record just when its thread has an outstanding start. -/
theorem exit_isSome_iff (hempty : ∀ key, p.pending.peek? key = none) :
    ((p.after steps).exit s i retval).1.isSome ↔
      ∃ s' i' args, p.Outstanding steps i.caller.thread s' i' args := by
  constructor
  · intro hsome
    cases hcall : (p.after steps).pending.peek? i.caller.threadKey with
    | none =>
      rw [exit_of_none hcall] at hsome
      cases hsome
    | some call => exact exists_outstanding hempty hcall
  · rintro ⟨s', i', args, h⟩
    obtain ⟨emission, hemission, -⟩ := reports_of_outstanding h
    rw [hemission]
    rfl

/-! ### Steps of other threads -/

/-- A step of another thread ends a wait only by taking the room away. -/
theorem ends_iff_evicts (h : step.thread? ≠ some t) : Ends t p step ↔ Evicts t p step := by
  cases step with
  | enter s i args =>
    have hthread : i.caller.thread ≠ t := fun hthread => h (congrArg some hthread)
    simp [Ends, Evicts, hthread]
  | exit s i retval =>
    exact iff_of_false (fun hthread => h (congrArg some hthread)) id
  | watch inode => exact Iff.rfl

/-- While only other threads are busy, what was outstanding stays so unless it is evicted. -/
theorem outstanding_append_iff {others : List Step} (h : ∀ step ∈ others, step.thread? ≠ some t) :
    p.Outstanding (steps ++ others) t s i args ↔
      p.Outstanding steps t s i args ∧ ¬ Sometime (Evicts t) (p.after steps) others := by
  induction others using List.reverseRecOn with
  | nil => simp [Sometime]
  | append_singleton others step ih =>
    have hothers : ∀ step ∈ others, step.thread? ≠ some t :=
      fun step hstep => h step (List.mem_append_left _ hstep)
    have hstep : step.thread? ≠ some t := h step (by simp)
    have hown : ¬ (step = .enter s i args ∧ i.caller.thread = t ∧
        (p.after (steps ++ others)).Accepts s i args) := by
      rintro ⟨rfl, rfl, -⟩
      exact hstep rfl
    rw [← List.append_assoc, outstanding_concat, or_iff_left hown, ih hothers,
      ends_iff_evicts hstep, sometime_concat, ← after_append, and_assoc, not_or]

/-- A start that is not accepted changes nothing for its thread. -/
theorem outstanding_rejected_iff (h : ¬ (p.after steps).Accepts s i args) {s₀ : Surroundings}
    {i₀ : Invocation} {args₀ : Arguments} :
    p.Outstanding (steps ++ [.enter s i args]) t s₀ i₀ args₀ ↔
      p.Outstanding steps t s₀ i₀ args₀ := by
  rw [outstanding_concat, or_iff_left]
  · exact and_iff_left fun hends => h hends.1
  · rintro ⟨hstep, -, haccepts⟩
    cases hstep
    exact h haccepts

/-- What is outstanding after the last start of a thread. -/
theorem outstanding_of_lastStart_iff {before between : List Step}
    (hlast : LastStart steps t before s i args between) {s₀ : Surroundings} {i₀ : Invocation}
    {args₀ : Arguments} :
    p.Outstanding steps t s₀ i₀ args₀ ↔
      p.Outstanding (before ++ [.enter s i args]) t s₀ i₀ args₀ ∧
        ¬ Sometime (Evicts t) (p.after (before ++ [.enter s i args])) between := by
  have hsplit : steps = before ++ [.enter s i args] ++ between := by
    rw [hlast.split, List.append_assoc, List.singleton_append]
  rw [hsplit, outstanding_append_iff hlast.others]

/-- **Returns after a start that was not accepted.** The last start of a thread was not accepted,
and its next return comes. The return gives a record just when an earlier start of the thread was
outstanding when the last one came, so that its own return was never seen, and was not evicted
since. The record then reports that earlier start, with the value of this return. -/
theorem exit_after_rejected {config : Config} {processors : Nat}
    (hnew : Probe.new config processors = .ok p) {before between : List Step}
    (hlast : LastStart steps i'.caller.thread before s i args between)
    (hrejected : ¬ (p.after before).Accepts s i args) (s' : Surroundings) (retval : Int64) :
    (((p.after steps).exit s' i' retval).1.isSome ↔
      (∃ s₀ i₀ args₀, p.Outstanding before i'.caller.thread s₀ i₀ args₀) ∧
        ¬ Sometime (Evicts i'.caller.thread) (p.after (before ++ [.enter s i args])) between) ∧
    (∀ emission, ((p.after steps).exit s' i' retval).1 = some emission →
      ∃ s₀ i₀ args₀, p.Outstanding before i'.caller.thread s₀ i₀ args₀ ∧
        emission.event.Reports (args₀.captured (s₀.view 0) i₀.caller).event retval) := by
  have hempty : ∀ key, p.pending.peek? key = none := peek?_of_new hnew
  have houtstanding : ∀ s₀ i₀ args₀, p.Outstanding steps i'.caller.thread s₀ i₀ args₀ ↔
      p.Outstanding before i'.caller.thread s₀ i₀ args₀ ∧
        ¬ Sometime (Evicts i'.caller.thread) (p.after (before ++ [.enter s i args])) between := by
    intro s₀ i₀ args₀
    rw [outstanding_of_lastStart_iff hlast, outstanding_rejected_iff hrejected]
  constructor
  · rw [exit_isSome_iff hempty]
    simp only [houtstanding, exists_and_right]
  · intro emission hemission
    obtain ⟨s₀, i₀, args₀, h⟩ := (exit_isSome_iff hempty).1 (Option.isSome_of_mem hemission)
    obtain ⟨emission', hemission', hreports⟩ := reports_of_outstanding h
    obtain rfl := Option.some.inj (hemission.symm.trans hemission')
    exact ⟨s₀, i₀, args₀, ((houtstanding s₀ i₀ args₀).1 h).1, hreports⟩

theorem ne_zero_drawn_plain : (1 : UInt32) ≠ 0 := by decide

/-- A tree in which nothing can be read but inodes, of a machine that draws the key `1`. -/
def plain : Surroundings where
  view := .still ⟨fun _ _ => none, fun _ => none, fun d => some (d.id + 1), fun _ => none,
    fun _ => none⟩
  drawn _ := ⟨1, ne_zero_drawn_plain⟩

/-- In a new probe without filter, opening an entry is accepted, whoever does it. -/
theorem accepts_openFile {processors : Nat}
    (hnew : Probe.new { filteringEnabled := false } processors = .ok p) (s : Surroundings)
    (i : Invocation) (entry : Handle) (mount : MountId) :
    p.Accepts s i (.openFile entry mount) := by
  obtain ⟨hmodes, -, hwatched⟩ := fields_of_new hnew
  have htraced :
      (Modes.ofConfig { filteringEnabled := false }).events.contains .openFile = true := by
    decide
  refine ⟨hmodes ▸ htraced, rfl, Or.inl (Or.inl ?_)⟩
  rw [hwatched]
  rfl

/-- A modification of something else than the content is not accepted. -/
theorem not_accepts_modify {mask : UInt32} (h : mask ≠ modifyMask) (s : Surroundings)
    (i : Invocation) (entry : Handle) : ¬ p.Accepts s i (.modify entry mask) := by
  rintro ⟨-, htraced, -⟩
  exact h (of_decide_eq_true htraced)

/-- On a thread without earlier operations, such a start leads to no record. -/
theorem exit_after_first_rejected :
    ∃ p, Probe.new { filteringEnabled := false } 1 = .ok p ∧
      ((p.after [.enter plain {} (.modify ⟨0⟩ 4)]).exit plain {} 0).1 = none := by
  obtain ⟨p, hnew⟩ : ∃ p, Probe.new { filteringEnabled := false } 1 = .ok p := ⟨_, rfl⟩
  have hlast : LastStart [.enter plain {} (.modify ⟨0⟩ 4)] (Invocation.caller {}).thread [] plain
      {} (.modify ⟨0⟩ 4) [] := ⟨rfl, rfl, by simp⟩
  obtain ⟨hreturn, -⟩ :=
    exit_after_rejected hnew hlast (not_accepts_modify (by decide) _ _ _) plain 0
  refine ⟨p, hnew, Option.not_isSome_iff_eq_none.1 fun hsome => ?_⟩
  obtain ⟨⟨s₀, i₀, args₀, h⟩, -⟩ := hreturn.1 hsome
  exact not_outstanding_nil h

/-- The return of a modification that was not accepted gives a record: that of the thread's earlier
operation, whose own return was not seen. -/
theorem exit_of_lost_return :
    ¬ ∀ (config : Config) (processors : Nat) (p : Probe), Probe.new config processors = .ok p →
      ∀ (steps before between : List Step) (s s' : Surroundings) (i i' : Invocation)
        (args : Arguments) (retval : Int64),
        LastStart steps i'.caller.thread before s i args between →
        ¬ (p.after before).Accepts s i args →
        ((p.after steps).exit s' i' retval).1 = none := by
  intro hnone
  obtain ⟨p, hnew⟩ : ∃ p, Probe.new { filteringEnabled := false } 1 = .ok p := ⟨_, rfl⟩
  have hrejected : ¬ (p.after [.enter plain {} (.openFile ⟨0⟩ 1)]).Accepts plain {}
      (.modify ⟨0⟩ 4) := not_accepts_modify (by decide) _ _ _
  have hopen : p.Outstanding [.enter plain {} (.openFile ⟨0⟩ 1)] (Invocation.caller {}).thread
      plain {} (.openFile ⟨0⟩ 1) := ⟨[], [], rfl, rfl, accepts_openFile hnew _ _ _ _, id⟩
  obtain ⟨emission, hemission, -⟩ :=
    reports_of_outstanding ((outstanding_rejected_iff hrejected).2 hopen)
  have hreturn := hnone _ _ p hnew _ _ [] plain plain {} {} _ 0 ⟨rfl, rfl, by simp⟩ hrejected
  exact Option.some_ne_none emission (hemission.symm.trans hreturn)

end Probe

end FsTrace
