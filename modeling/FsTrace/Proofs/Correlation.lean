import FsTrace.Proofs.OpenCalls
import FsTrace.Proofs.SecondChance

/-!
# Starts and returns in turn

Any number of threads, each of which starts an operation and returns from it in turn, with their
handler calls in any order. No key is started twice without a return, so that no kept call counts as
used, and the one that has to make room is always the oldest.

* `Alternate`: the calls of each thread come in turn;
* `InTurn`: what holds of the operations in flight after any such calls;
* `Probe.calls_correlate`: a return reports the start before it if that was accepted and not
  evicted; a call is evicted only after as many later ones as the table holds; and with no more
  threads than that, every accepted call is reported.
-/

namespace FsTrace

/-! ### Turns -/

namespace Step

/-- A thread starts an operation only if it is in none, and returns only from one. -/
def Allowed (busy : Finset Thread) : Step → Prop
  | .enter _ i _ => i.caller.thread ∉ busy
  | .exit _ i _ => i.caller.thread ∈ busy
  | .watch _ => True

/-- The threads that are in an operation after a step. -/
def turn (busy : Finset Thread) : Step → Finset Thread
  | .enter _ i _ => insert i.caller.thread busy
  | .exit _ i _ => busy.erase i.caller.thread
  | .watch _ => busy

variable {busy : Finset Thread} {step : Step} {t : Thread}

theorem mem_turn_of_other (h : step.thread? ≠ some t) : t ∈ step.turn busy ↔ t ∈ busy := by
  cases step with
  | enter s i args =>
    have hne : t ≠ i.caller.thread := fun ht => h (congrArg some ht.symm)
    simp [turn, hne]
  | exit s i retval =>
    have hne : t ≠ i.caller.thread := fun ht => h (congrArg some ht.symm)
    simp [turn, hne]
  | watch inode => rfl

end Step

/-- The threads that are in an operation after some steps. -/
def busyAfter (busy : Finset Thread) (steps : List Step) : Finset Thread :=
  steps.foldl Step.turn busy

/-- The calls of each thread come in turn, given the threads that are in an operation. -/
def Alternate (busy : Finset Thread) : List Step → Prop
  | [] => True
  | step :: steps => step.Allowed busy ∧ Alternate (step.turn busy) steps

/-- The threads that take part in a run. -/
def threads (steps : List Step) : Finset Thread := (steps.filterMap Step.thread?).toFinset

variable {busy : Finset Thread} {step : Step} {steps steps' : List Step} {t : Thread}

theorem alternate_append :
    Alternate busy (steps ++ steps') ↔
      Alternate busy steps ∧ Alternate (busyAfter busy steps) steps' := by
  induction steps generalizing busy with
  | nil => simp [Alternate, busyAfter]
  | cons step steps ih =>
    rw [List.cons_append, Alternate, ih, Alternate, and_assoc]
    rfl

theorem busyAfter_concat : busyAfter busy (steps ++ [step]) = step.turn (busyAfter busy steps) := by
  rw [busyAfter, List.foldl_append]
  rfl

theorem thread_mem_threads (hstep : step ∈ steps) (h : step.thread? = some t) :
    t ∈ threads steps :=
  List.mem_toFinset.2 (List.mem_filterMap.2 ⟨step, hstep, h⟩)

theorem threads_append : threads (steps ++ steps') = threads steps ∪ threads steps' := by
  rw [threads, List.filterMap_append, List.toFinset_append]
  rfl

theorem threads_subset_append : threads steps ⊆ threads (steps ++ steps') := by
  rw [threads_append]
  exact Finset.subset_union_left

theorem busyAfter_subset : busyAfter ∅ steps ⊆ threads steps := by
  induction steps using List.reverseRecOn with
  | nil => exact Finset.empty_subset _
  | append_singleton steps step ih =>
    intro t ht
    rw [busyAfter_concat] at ht
    by_cases h : step.thread? = some t
    · exact thread_mem_threads (by simp) h
    · have hold := ih ((Step.mem_turn_of_other h).1 ht)
      exact threads_subset_append hold

/-- What a thread that is in an operation did last is to start it. -/
theorem exists_lastStart (halternate : Alternate ∅ steps) (h : t ∈ busyAfter ∅ steps) :
    ∃ before s i args between, LastStart steps t before s i args between := by
  induction steps using List.reverseRecOn with
  | nil => exact absurd h (Finset.notMem_empty t)
  | append_singleton steps step ih =>
    rw [busyAfter_concat] at h
    rw [alternate_append] at halternate
    by_cases hstep : step.thread? = some t
    · cases step with
      | enter s i args => exact ⟨steps, s, i, args, [], rfl, Option.some.inj hstep, by simp⟩
      | exit s i retval =>
        rw [Step.turn, Option.some.inj hstep] at h
        exact absurd h (Finset.notMem_erase t _)
      | watch inode => cases hstep
    · obtain ⟨before, s, i, args, between, rfl, hthread, hothers⟩ :=
        ih halternate.1 ((Step.mem_turn_of_other hstep).1 h)
      refine ⟨before, s, i, args, between ++ [step], by simp, hthread, fun other hother => ?_⟩
      rcases List.mem_append.1 hother with hother | hother
      · exact hothers other hother
      · exact List.mem_singleton.1 hother ▸ hstep

namespace Probe

variable {p : Probe} {capacity n : Nat} {s : Surroundings} {i : Invocation} {args : Arguments}

/-! ### The operations in flight -/

/-- What holds of the operations in flight when the calls of each thread come in turn: no kept call
counts as used, and each is that of a thread in an operation. -/
structure InTurn (p : Probe) (capacity : Nat) (busy : Finset Thread) : Prop where
  valid : p.pending.Valid
  capacity_eq : p.pending.capacity = capacity
  unused : ∀ item ∈ p.pending.items, item.2.used = false
  busy_of_mem : ∀ item ∈ p.pending.items, ∃ t ∈ busy, item.1 = t.key

theorem inTurn_new {config : Config} {processors : Nat}
    (hnew : Probe.new config processors = .ok p) :
    InTurn p (max config.capacities.pendingCalls 1) ∅ := by
  have hpending := (fields_of_new hnew).2.1
  have hitems : p.pending.items = [] := by rw [hpending, Table.items_new]
  refine ⟨hpending ▸ Table.valid_new _, by rw [hpending]; rfl, ?_, ?_⟩
  · simp [hitems]
  · simp [hitems]

/-- A thread that is in no operation has no kept call. -/
theorem InTurn.peek?_of_idle (h : InTurn p capacity busy) (hidle : t ∉ busy) :
    p.pending.peek? t.key = none := by
  rw [Table.peek?_eq_none_iff h.valid]
  intro item hitem hkey
  obtain ⟨u, hu, hitemKey⟩ := h.busy_of_mem item hitem
  obtain rfl := Thread.key_inj.1 (hkey.symm.trans hitemKey)
  exact hidle hu

/-- No more calls are kept than threads are in an operation. -/
theorem InTurn.length_le (h : InTurn p capacity busy) : p.pending.items.length ≤ busy.card := by
  have hkeys : ∀ item ∈ p.pending.items, item.1 ∈ busy.image Thread.key := by
    intro item hitem
    obtain ⟨u, hu, hkey⟩ := h.busy_of_mem item hitem
    exact Finset.mem_image.2 ⟨u, hu, hkey.symm⟩
  calc p.pending.items.length
      ≤ (busy.image Thread.key).card := Table.length_items_le h.valid hkeys
    _ ≤ busy.card := Finset.card_image_le

/-- The line of kept calls after an accepted start: the new one is the last, and if the table was
full, the first is gone. -/
theorem InTurn.items_enter (h : InTurn p capacity busy) (hidle : i.caller.thread ∉ busy)
    (haccepts : p.Accepts s i args) :
    ∃ entry : Entry PendingCall, entry.used = false ∧
      (p.victim i = none ∧
          (p.enter s i args).pending.items =
            p.pending.items ++ [(i.caller.threadKey, entry)] ∨
        ∃ item rest, p.pending.items = item :: rest ∧ p.victim i = some item.1 ∧
          capacity ≤ p.pending.items.length ∧
          (p.enter s i args).pending.items = rest ++ [(i.caller.threadKey, entry)]) := by
  obtain ⟨call, -, hpending⟩ := pending_enter_of_accepts haccepts
  have habsent : p.pending.peek? i.caller.threadKey = none := by
    rw [← Caller.key_thread]
    exact h.peek?_of_idle hidle
  have hvictim : p.victim i = p.pending.makeRoom.1 := by
    rw [← fst_start call, PendingCalls.start, Table.insert_of_absent habsent]
  have hitems : (p.enter s i args).pending.items = p.pending.makeRoom.2.items ++
      [(i.caller.threadKey, ⟨call, p.pending.clock + 1, false⟩)] := by
    rw [hpending]
    exact Table.items_insert_of_absent h.valid habsent call
  refine ⟨⟨call, p.pending.clock + 1, false⟩, rfl, ?_⟩
  rw [hvictim, hitems]
  by_cases hroom : p.pending.items.length < p.pending.capacity
  · rw [Table.makeRoom_of_room h.valid hroom]
    exact Or.inl ⟨rfl, rfl⟩
  · have hswept := Table.makeRoom_of_full h.valid (Nat.le_of_not_lt hroom)
    have hunused := h.unused
    have hfull : capacity ≤ p.pending.items.length := h.capacity_eq ▸ Nat.le_of_not_lt hroom
    have hpos := h.valid.capacity_pos
    rw [h.capacity_eq] at hpos
    cases hline : p.pending.items with
    | nil =>
      rw [hline, List.length_nil] at hfull
      omega
    | cons item rest =>
      -- none was used, so the sweep takes the first
      rw [hline, Table.sweepItems_of_unused _ item (hunused item (hline ▸ List.mem_cons_self))]
        at hswept
      obtain ⟨hgone, hrest⟩ := Prod.mk.inj hswept
      exact Or.inr ⟨item, rest, rfl, hgone, hline ▸ hfull, by rw [hrest]⟩

theorem InTurn.next (h : InTurn p capacity busy) (hallowed : step.Allowed busy) :
    InTurn (p.next step) capacity (step.turn busy) := by
  cases step with
  | enter s i args =>
    by_cases haccepts : p.Accepts s i args
    · obtain ⟨call, -, hpending⟩ := pending_enter_of_accepts haccepts
      obtain ⟨entry, hentry, hline⟩ := h.items_enter hallowed haccepts
      -- each item is the new one, or was there before
      have hmem : ∀ item ∈ (p.enter s i args).pending.items,
          item ∈ p.pending.items ∨ item = (i.caller.threadKey, entry) := by
        intro item hitem
        rcases hline with ⟨-, hitems⟩ | ⟨first, rest, hold, -, -, hitems⟩
        · rw [hitems, List.mem_append, List.mem_singleton] at hitem
          exact hitem
        · rw [hitems, List.mem_append, List.mem_singleton] at hitem
          exact hitem.imp_left fun hrest => hold ▸ List.mem_cons_of_mem _ hrest
      refine ⟨?_, ?_, fun item hitem => ?_, fun item hitem => ?_⟩
      · show (p.enter s i args).pending.Valid
        rw [hpending]
        exact Table.valid_insert h.valid _ _
      · show (p.enter s i args).pending.capacity = capacity
        rw [hpending]
        exact (Table.capacity_insert _ _ _).trans h.capacity_eq
      · rcases hmem item hitem with hold | rfl
        · exact h.unused item hold
        · exact hentry
      · rcases hmem item hitem with hold | rfl
        · obtain ⟨u, hu, hkey⟩ := h.busy_of_mem item hold
          exact ⟨u, Finset.mem_insert_of_mem hu, hkey⟩
        · exact ⟨i.caller.thread, Finset.mem_insert_self _ _, rfl⟩
    · have hpending : (p.next (.enter s i args)).pending = p.pending :=
        pending_enter_of_not_accepts haccepts
      refine ⟨hpending ▸ h.valid, hpending ▸ h.capacity_eq, hpending ▸ h.unused, ?_⟩
      intro item hitem
      obtain ⟨u, hu, hkey⟩ := h.busy_of_mem item (hpending ▸ hitem)
      exact ⟨u, Finset.mem_insert_of_mem hu, hkey⟩
  | exit s i retval =>
    have hpending : (p.next (.exit s i retval)).pending =
        (p.pending.complete i.caller.threadKey).2 := pending_exit
    have hitems : (p.next (.exit s i retval)).pending.items =
        p.pending.items.filter (·.1 != i.caller.threadKey) := by
      rw [hpending]
      exact Table.items_remove h.valid _
    refine ⟨?_, ?_, fun item hitem => ?_, fun item hitem => ?_⟩
    · rw [hpending]
      exact Table.valid_remove h.valid _
    · rw [hpending]
      exact (Table.capacity_remove _ _).trans h.capacity_eq
    · rw [hitems] at hitem
      exact h.unused item (List.mem_filter.1 hitem).1
    · rw [hitems, List.mem_filter] at hitem
      obtain ⟨u, hu, hkey⟩ := h.busy_of_mem item hitem.1
      refine ⟨u, Finset.mem_erase.2 ⟨?_, hu⟩, hkey⟩
      rintro rfl
      exact (bne_iff_ne.1 hitem.2) hkey
  | watch inode => exact ⟨h.valid, h.capacity_eq, h.unused, h.busy_of_mem⟩

theorem InTurn.after (h : InTurn p capacity busy) (halternate : Alternate busy steps) :
    InTurn (p.after steps) capacity (busyAfter busy steps) := by
  induction steps generalizing p busy with
  | nil => exact h
  | cons step steps ih => exact ih (h.next halternate.1) halternate.2

/-! ### Who has to make room -/

/-- At most so many calls are in line behind that of a thread. -/
def Behind (p : Probe) (t : Thread) (n : Nat) : Prop :=
  ∀ front item back, p.pending.items = front ++ item :: back → item.1 = t.key → back.length ≤ n

/-- A call that was just kept is the last in line. -/
theorem InTurn.behind_enter (h : InTurn p capacity busy) (hidle : i.caller.thread ∉ busy)
    (haccepts : p.Accepts s i args) : Behind (p.enter s i args) i.caller.thread 0 := by
  intro front item back hsplit hkey
  have hturn : InTurn (p.next (.enter s i args)) capacity (Step.turn busy (.enter s i args)) :=
    h.next hidle
  obtain ⟨entry, -, hline⟩ := h.items_enter hidle haccepts
  obtain ⟨line, hitems⟩ : ∃ line, (p.enter s i args).pending.items =
      line ++ [(i.caller.threadKey, entry)] := by
    rcases hline with ⟨-, hitems⟩ | ⟨first, rest, -, -, -, hitems⟩
    · exact ⟨_, hitems⟩
    · exact ⟨_, hitems⟩
  rcases List.eq_nil_or_concat back with rfl | ⟨back, last, rfl⟩
  · exact le_rfl
  · -- the last one would have the same key
    rw [List.concat_eq_append] at hsplit
    have hlast : last = (i.caller.threadKey, entry) := by
      rw [hitems, ← List.cons_append, ← List.append_assoc] at hsplit
      exact (List.cons.inj (List.append_inj' hsplit rfl).2).1.symm
    have hdistinct := Table.keys_distinct hturn.valid
    rw [Probe.next, hsplit, List.pairwise_append, List.pairwise_cons] at hdistinct
    refine absurd ?_ (hdistinct.2.1.1 last (by simp))
    rw [hkey, hlast, Caller.key_thread]

/-- A step of another thread lengthens the line behind a call only by an accepted start. -/
theorem InTurn.behind_next (h : InTurn p capacity busy) (hallowed : step.Allowed busy)
    (hbehind : Behind p t n) : Behind (p.next step) t (n + p.admits step) := by
  intro front item back hsplit hkey
  cases step with
  | enter s i args =>
    by_cases haccepts : p.Accepts s i args
    · have hadmits : p.admits (.enter s i args) = 1 := if_pos haccepts
      obtain ⟨entry, -, hline⟩ := h.items_enter hallowed haccepts
      -- without the new one, the line is the old one or ends it
      obtain ⟨gone, line, hold, hitems⟩ : ∃ gone line, p.pending.items = gone ++ line ∧
          (p.enter s i args).pending.items = line ++ [(i.caller.threadKey, entry)] := by
        rcases hline with ⟨-, hitems⟩ | ⟨first, rest, hold, -, -, hitems⟩
        · exact ⟨[], _, rfl, hitems⟩
        · exact ⟨[first], rest, hold, hitems⟩
      have hsplit' : line ++ [(i.caller.threadKey, entry)] = front ++ item :: back :=
        hitems.symm.trans hsplit
      rcases List.eq_nil_or_concat back with rfl | ⟨back, last, rfl⟩
      · exact Nat.zero_le _
      · rw [List.concat_eq_append, ← List.cons_append, ← List.append_assoc] at hsplit'
        obtain ⟨rfl, -⟩ := List.append_inj' hsplit' rfl
        have hle := hbehind (gone ++ front) item back (by rw [hold, List.append_assoc]) hkey
        rw [List.concat_eq_append, List.length_append, List.length_singleton, hadmits]
        omega
    · rw [Probe.next, pending_enter_of_not_accepts haccepts] at hsplit
      exact (hbehind front item back hsplit hkey).trans (Nat.le_add_right _ _)
  | exit s i retval =>
    have hitems : p.pending.items.filter (·.1 != i.caller.threadKey) = front ++ item :: back := by
      rw [← Table.items_remove h.valid, ← hsplit, Probe.next, pending_exit]
      rfl
    -- before the removal, the line behind was no shorter
    obtain ⟨start, rest, hold, -, hrest⟩ := List.filter_eq_append_iff.1 hitems
    obtain ⟨skipped, behind, rfl, -, -, rfl⟩ := List.filter_eq_cons_iff.1 hrest
    have hle := hbehind (start ++ skipped) item behind (by rw [hold, List.append_assoc]) hkey
    exact ((List.length_filter_le _ _).trans hle).trans (Nat.le_add_right _ _)
  | watch inode => exact (hbehind front item back hsplit hkey).trans (Nat.le_add_right _ _)

/-- A call is evicted only when as many starts were accepted after it as the table holds, the one
that takes its room included. -/
theorem InTurn.le_admitted_of_evicts (h : InTurn p capacity busy)
    (halternate : Alternate busy (steps ++ [step])) (hbehind : Behind p t n)
    (hevicts : Evicts t (p.after steps) step) : capacity ≤ n + admitted p (steps ++ [step]) := by
  induction steps generalizing p busy n with
  | nil =>
    cases step with
    | enter s i args =>
      obtain ⟨haccepts, hvictim⟩ := hevicts
      have hadmits : p.admits (.enter s i args) = 1 := if_pos haccepts
      obtain ⟨entry, -, hline⟩ := h.items_enter halternate.1 haccepts
      rcases hline with ⟨hnone, -⟩ | ⟨first, rest, hitems, hfirst, hfull, -⟩
      · rw [after_nil, hnone] at hvictim
        cases hvictim
      · have hkey : first.1 = t.key := Option.some.inj (hfirst.symm.trans hvictim)
        have hle := hbehind [] first rest hitems hkey
        rw [hitems, List.length_cons] at hfull
        rw [List.nil_append, admitted, admitted, hadmits]
        omega
    | exit s i retval => exact hevicts.elim
    | watch inode => exact hevicts.elim
  | cons first steps ih =>
    have hle := ih (h.next halternate.1) halternate.2 (h.behind_next halternate.1 hbehind) hevicts
    rw [List.cons_append, admitted]
    omega

/-- While no more threads are in an operation than the table holds, nothing is evicted. -/
theorem InTurn.not_evicts (h : InTurn p capacity busy) (hallowed : step.Allowed busy)
    (hcard : (step.turn busy).card ≤ capacity) : ¬ Evicts t p step := by
  intro hevicts
  cases step with
  | enter s i args =>
    obtain ⟨haccepts, hvictim⟩ := hevicts
    obtain ⟨entry, -, hline⟩ := h.items_enter hallowed haccepts
    rcases hline with ⟨hnone, -⟩ | ⟨first, rest, -, -, hfull, -⟩
    · rw [hnone] at hvictim
      cases hvictim
    · -- every kept call is that of a busy thread, and this thread was not busy
      have hlength := h.length_le
      rw [Step.turn, Finset.card_insert_of_notMem hallowed] at hcard
      omega
  | exit s i retval => exact hevicts
  | watch inode => exact hevicts

/-! ### Whole runs -/

variable {config : Config} {processors : Nat} {before between : List Step} {s' : Surroundings}
  {i' : Invocation} {retval : Int64}

theorem inTurn_after (hnew : Probe.new config processors = .ok p) (h : Alternate ∅ steps) :
    InTurn (p.after steps) (max config.capacities.pendingCalls 1) (busyAfter ∅ steps) :=
  (inTurn_new hnew).after h

/-- After the last start of a thread, only that one can be outstanding. -/
theorem outstanding_iff_of_alternate (hnew : Probe.new config processors = .ok p)
    (halternate : Alternate ∅ steps) (hlast : LastStart steps t before s i args between)
    {s₁ : Surroundings} {i₁ : Invocation} {args₁ : Arguments} :
    p.Outstanding steps t s₁ i₁ args₁ ↔
      Step.enter s i args = .enter s₁ i₁ args₁ ∧ (p.after before).Accepts s i args ∧
        ¬ Sometime (Evicts t) (p.after (before ++ [.enter s i args])) between := by
  obtain ⟨rfl, rfl, hothers⟩ := hlast
  obtain ⟨hbefore, hidle, -⟩ := alternate_append.1 halternate
  have hnone : ¬ p.Outstanding before i.caller.thread s₁ i₁ args₁ := by
    intro houtstanding
    obtain ⟨call, hcall, -⟩ := kept_of_outstanding houtstanding
    rw [(inTurn_after hnew hbefore).peek?_of_idle hidle] at hcall
    cases hcall
  -- the thread was idle, so what is outstanding was started by this very step
  rw [outstanding_of_lastStart_iff ⟨rfl, rfl, hothers⟩, outstanding_concat,
    or_iff_right fun h => hnone h.1]
  constructor
  · rintro ⟨⟨hstep, -, haccepts⟩, hkept⟩
    cases hstep
    exact ⟨rfl, haccepts, hkept⟩
  · rintro ⟨hstep, haccepts, hkept⟩
    cases hstep
    exact ⟨⟨rfl, rfl, haccepts⟩, hkept⟩

/-- A return gives a record just when the last start of its thread was accepted and not evicted
since, and then one of that start. -/
theorem exit_of_lastStart (hnew : Probe.new config processors = .ok p)
    (halternate : Alternate ∅ steps)
    (hlast : LastStart steps i'.caller.thread before s i args between) :
    (((p.after steps).exit s' i' retval).1.isSome ↔ (p.after before).Accepts s i args ∧
      ¬ Sometime (Evicts i'.caller.thread) (p.after (before ++ [.enter s i args])) between) ∧
    ∀ emission, ((p.after steps).exit s' i' retval).1 = some emission →
      emission.event.Reports (args.captured (s.view 0) i.caller).event retval := by
  have hempty : ∀ key, p.pending.peek? key = none := peek?_of_new hnew
  refine ⟨?_, fun emission hemission => ?_⟩
  · rw [exit_isSome_iff hempty]
    constructor
    · rintro ⟨s₁, i₁, args₁, h⟩
      exact ((outstanding_iff_of_alternate hnew halternate hlast).1 h).2
    · intro h
      exact ⟨s, i, args, (outstanding_iff_of_alternate hnew halternate hlast).2 ⟨rfl, h⟩⟩
  · obtain ⟨s₁, i₁, args₁, h⟩ := (exit_isSome_iff hempty).1 (Option.isSome_of_mem hemission)
    obtain ⟨hstart, -⟩ := (outstanding_iff_of_alternate hnew halternate hlast).1 h
    obtain ⟨emission', hemission', hreports⟩ := reports_of_outstanding h
    obtain rfl := Option.some.inj (hemission.symm.trans hemission')
    cases hstart
    exact hreports

/-- A kept call is evicted only when as many starts were accepted after it as the table holds. -/
theorem pendingCalls_le_admitted (hnew : Probe.new config processors = .ok p)
    (halternate : Alternate ∅ (before ++ .enter s i args :: (between ++ [step])))
    (haccepts : (p.after before).Accepts s i args)
    (hevicts : Evicts i.caller.thread (p.after (before ++ .enter s i args :: between)) step) :
    config.capacities.pendingCalls ≤
      admitted (p.after (before ++ [.enter s i args])) (between ++ [step]) := by
  obtain ⟨hbefore, hidle, hrest⟩ := alternate_append.1 halternate
  have hturn := inTurn_after hnew hbefore
  have hbehind : Behind (p.after (before ++ [.enter s i args])) i.caller.thread 0 := by
    rw [after_concat]
    exact hturn.behind_enter hidle haccepts
  have hafter : InTurn (p.after (before ++ [.enter s i args]))
      (max config.capacities.pendingCalls 1)
      (Step.turn (busyAfter ∅ before) (.enter s i args)) := by
    rw [after_concat]
    exact hturn.next hidle
  rw [List.append_cons, after_append] at hevicts
  have hle := hafter.le_admitted_of_evicts hrest hbehind hevicts
  rw [Nat.zero_add] at hle
  exact (le_max_left _ _).trans hle

/-- With no more threads than the table holds, nothing is evicted. -/
theorem not_sometime_evicts (hnew : Probe.new config processors = .ok p)
    (halternate : Alternate ∅ (before ++ between))
    (hcard : (threads (before ++ between)).card ≤ config.capacities.pendingCalls) :
    ¬ Sometime (Evicts t) (p.after before) between := by
  intro hevicted
  obtain ⟨mid, step, rest, rfl, hevicts⟩ := exists_of_sometime hevicted
  have hsplit : before ++ (mid ++ step :: rest) = before ++ mid ++ [step] ++ rest := by simp
  rw [hsplit] at halternate hcard
  obtain ⟨hmid, hallowed, -⟩ := alternate_append.1 (alternate_append.1 halternate).1
  rw [← after_append] at hevicts
  refine (inTurn_after hnew hmid).not_evicts hallowed ?_ hevicts
  calc (step.turn (busyAfter ∅ (before ++ mid))).card
      = (busyAfter ∅ (before ++ mid ++ [step])).card := by rw [busyAfter_concat]
    _ ≤ (threads (before ++ mid ++ [step] ++ rest)).card :=
      Finset.card_le_card (busyAfter_subset.trans threads_subset_append)
    _ ≤ max config.capacities.pendingCalls 1 := hcard.trans (le_max_left _ _)

/-- **Starts and returns in turn.** Each thread starts an operation and returns from it in turn, and
the handler calls of all threads come in any order.

Each return of a thread has a start of that thread before it, with no other call of the thread in
between. It gives a record just when that start was accepted and the call was not evicted since, and
then the record reports that start, with the value of the return. A call is evicted only when as
many starts were accepted after it as the table holds, the one that takes its room included. With no
more threads than that, each return after an accepted start gives a record of it. -/
theorem calls_correlate (hnew : Probe.new config processors = .ok p)
    (halternate : Alternate ∅ steps) :
    (∀ before s' i' retval after, steps = before ++ .exit s' i' retval :: after →
      ∃ b s i args between, LastStart before i'.caller.thread b s i args between ∧
        (((p.after before).exit s' i' retval).1.isSome ↔ (p.after b).Accepts s i args ∧
          ¬ Sometime (Evicts i'.caller.thread) (p.after (b ++ [.enter s i args])) between) ∧
        ∀ emission, ((p.after before).exit s' i' retval).1 = some emission →
          emission.event.Reports (args.captured (s.view 0) i.caller).event retval) ∧
    (∀ before s i args between step after,
      steps = before ++ .enter s i args :: (between ++ [step]) ++ after →
      (p.after before).Accepts s i args →
      Evicts i.caller.thread (p.after (before ++ .enter s i args :: between)) step →
      config.capacities.pendingCalls ≤
        admitted (p.after (before ++ [.enter s i args])) (between ++ [step])) ∧
    ((threads steps).card ≤ config.capacities.pendingCalls →
      ∀ before s' i' retval after, steps = before ++ .exit s' i' retval :: after →
        ∀ b s i args between, LastStart before i'.caller.thread b s i args between →
          (p.after b).Accepts s i args →
          ∃ emission, ((p.after before).exit s' i' retval).1 = some emission ∧
            emission.event.Reports (args.captured (s.view 0) i.caller).event retval) := by
  refine ⟨?_, ?_, ?_⟩
  · rintro before s' i' retval after rfl
    obtain ⟨hbefore, hbusy, -⟩ := alternate_append.1 halternate
    obtain ⟨b, s, i, args, between, hlast⟩ := exists_lastStart hbefore hbusy
    exact ⟨b, s, i, args, between, hlast, exit_of_lastStart hnew hbefore hlast⟩
  · rintro before s i args between step after rfl haccepts hevicts
    exact pendingCalls_le_admitted hnew (alternate_append.1 halternate).1 haccepts hevicts
  · rintro hcard before s' i' retval after rfl b s i args between hlast haccepts
    obtain ⟨hbefore, -⟩ := alternate_append.1 halternate
    obtain ⟨hiff, hreports⟩ := exit_of_lastStart hnew hbefore hlast
    have hsplit : before = b ++ [.enter s i args] ++ between := by
      rw [hlast.split, List.append_assoc, List.singleton_append]
    have hfew : (threads before).card ≤ config.capacities.pendingCalls :=
      (Finset.card_le_card threads_subset_append).trans hcard
    have hkept := hiff.2 ⟨haccepts, not_sometime_evicts hnew (hsplit ▸ hbefore) (hsplit ▸ hfew)⟩
    obtain ⟨emission, hemission⟩ := Option.isSome_iff_exists.1 hkept
    exact ⟨emission, hemission, hreports emission hemission⟩

/-- An invocation by a thread of the first process. -/
def byThread (tid : UInt32) : Invocation := { caller := { pid := 1, tid } }

/-- While one thread opens an entry, another one has a start that is not accepted. The return of the
second gives nothing, and that of the first a record with its own value. -/
theorem calls_correlate_two :
    ∃ p, Probe.new { filteringEnabled := false } 1 = .ok p ∧
      ((p.after [.enter plain (byThread 1) (.openFile ⟨0⟩ 1),
        .enter plain (byThread 2) (.modify ⟨0⟩ 4)]).exit plain (byThread 2) 0).1 = none ∧
      ∃ emission, ((p.after [.enter plain (byThread 1) (.openFile ⟨0⟩ 1),
        .enter plain (byThread 2) (.modify ⟨0⟩ 4), .exit plain (byThread 2) 0]).exit plain
          (byThread 1) 3).1 = some emission ∧
        emission.event.kind = .openFile ∧ emission.event.src.inode = 1 ∧
        emission.event.retval = 3 := by
  obtain ⟨p, hnew⟩ : ∃ p, Probe.new { filteringEnabled := false } 1 = .ok p := ⟨_, rfl⟩
  have halternate : Alternate ∅ [.enter plain (byThread 1) (.openFile ⟨0⟩ 1),
      .enter plain (byThread 2) (.modify ⟨0⟩ 4), .exit plain (byThread 2) 0,
      .exit plain (byThread 1) 3] := by
    simp [Alternate, Step.Allowed, Step.turn, byThread, Caller.thread]
  obtain ⟨hreturns, -, hfew⟩ := calls_correlate hnew halternate
  refine ⟨p, hnew, ?_, ?_⟩
  · obtain ⟨b, s, i, args, between, ⟨hsplit, hthread, -⟩, hiff, -⟩ :=
      hreturns [_, _] plain (byThread 2) 0 [_] rfl
    refine Option.not_isSome_iff_eq_none.1 fun hsome => ?_
    obtain ⟨haccepts, -⟩ := hiff.1 hsome
    rcases b with _ | ⟨_, _ | ⟨_, b⟩⟩
    · cases hsplit
      simp [byThread, Caller.thread] at hthread
    · cases hsplit
      exact not_accepts_modify (by decide) _ _ _ haccepts
    · simp at hsplit
  · obtain ⟨emission, hemission, hreports⟩ := hfew (by decide) [_, _, _] plain (byThread 1) 3 [] rfl
      [] plain (byThread 1) (.openFile ⟨0⟩ 1) [_, _]
      ⟨rfl, rfl, by simp [Step.thread?, byThread, Caller.thread]⟩ (accepts_openFile hnew _ _ _ _)
    exact ⟨emission, hemission, hreports.kind_eq, hreports.inode_eq (by decide),
      hreports.retval_eq⟩

end Probe

end FsTrace
