import FsTrace.Proofs.ParkedCalls
import FsTrace.Proofs.TableLimits

/-!
# What the statistics account for

The counters of a probe are moved in several places, while its tables overwrite, drop and take out
on their own. In every run they fit together: each call of a handler is found in them.

* `WatchSet.Grows`: how many inodes a set let in;
* `Books`, what the counters are about, and `Probe.Effect`: everything that one call can do to them,
  with `Probe.effect_next`;
* `Step.isReturn`, `Step.isTraced`, `Probe.overwrites`, `Probe.watchesAnew`, `Probe.records`: what
  is counted of the calls, and one lemma in `Probe.Effect` for each balance;
* `Probe.statistics_account`: the counters of a run and what was counted of its calls.
-/

namespace FsTrace

/-! ### Watched inodes -/

namespace WatchSet

variable {w w' w'' : WatchSet} {m n : Nat}

/-- From one set of watched inodes to a later one, so many inodes were let in. -/
structure Grows (w w' : WatchSet) (added : Nat) : Prop where
  valid : w'.inodes.Valid
  held_eq : w'.size + w'.inodes.evictions = w.size + w.inodes.evictions + added

theorem Grows.refl (hv : w.inodes.Valid) : w.Grows w 0 := ⟨hv, rfl⟩

theorem Grows.trans (h : w.Grows w' m) (h' : w'.Grows w'' n) : w.Grows w'' (m + n) where
  valid := h'.valid
  held_eq := by rw [h'.held_eq, h.held_eq, Nat.add_assoc]

/-- Asking for an inode lets nothing in. -/
theorem grows_watches (hv : w.inodes.Valid) (inode : Inode) : w.Grows (w.watches inode).2 0 := by
  unfold watches
  split
  · exact .refl hv
  · exact ⟨Table.valid_get hv inode, by simp [size, Table.size_get]⟩

theorem grows_inScope (hv : w.inodes.Valid) (inode parentInode : Inode) :
    w.Grows (w.inScope inode parentInode).2 0 := by
  have hsource := grows_watches hv inode
  unfold inScope
  split
  · split
    · next h =>
      rw [h] at hsource
      exact hsource
    · next h =>
      rw [h] at hsource
      exact hsource.trans (grows_watches hsource.valid parentInode)
  · exact .refl hv

/-- A new inode is let in, and one that is watched already is not. -/
theorem grows_register (hv : w.inodes.Valid) (inode : Inode) :
    w.Grows (w.register inode).2 (w.register inode).1.toNat := by
  have hwatches := grows_watches hv inode
  have hfound : (w.watches inode).1 = true ↔ w.Watches inode := fst_watches
  have hsame : (w.watches inode).2.Watches inode ↔ w.Watches inode := watches_watches
  unfold register
  split
  · exact .refl hv
  · next hzero =>
    split
    · next h =>
      rw [h] at hwatches
      exact hwatches
    · next w' h =>
      rw [h] at hwatches hfound hsame
      have habsent : w'.inodes.peek? inode = none := by
        by_contra hpresent
        exact absurd (hfound.2 (hsame.1 ⟨hzero, Option.isSome_iff_ne_none.2 hpresent⟩)) (by simp)
      have hsize := Table.size_insert_of_absent (t := w'.inodes) hwatches.valid habsent ()
      have hevictions := Table.evictions_insert w'.inodes inode ()
      have hheld : w'.inodes.size + w'.inodes.evictions = w.inodes.size + w.inodes.evictions :=
        hwatches.held_eq
      refine ⟨Table.valid_insert hwatches.valid inode (), ?_⟩
      show (w'.inodes.insert inode ()).2.size + (w'.inodes.insert inode ()).2.evictions =
        w.inodes.size + w.inodes.evictions + 1
      omega

end WatchSet

/-! ### Calls in flight -/

namespace PendingCalls

variable {calls : PendingCalls}

/-- A call that is kept comes in beside the others, or in the place of one of them. -/
theorem size_start (hv : calls.Valid) (key : Nat) (call : PendingCall) :
    (calls.start key call).2.size + (calls.start key call).1.isSome.toNat +
        (calls.peek? key).isSome.toNat = calls.size + 1 := by
  cases hentry : calls.peek? key with
  | some earlier =>
    have hpresent : (calls.peek? key).isSome := by simp [hentry]
    obtain ⟨hsize, hkept⟩ := Table.size_insert_of_present hpresent call
    simp [start, hsize, hkept]
  | none =>
    have hsize := Table.size_insert_of_absent hv hentry call
    rw [start]
    cases hevicted : (Table.insert calls key call).1 <;> simpa [hevicted] using hsize

/-- A call that is taken out was there. -/
theorem size_complete (calls : PendingCalls) (key : Nat) :
    (calls.complete key).2.size + (calls.peek? key).isSome.toNat = calls.size := by
  have hsize := Table.size_remove calls key
  rw [Table.fst_remove] at hsize
  rw [complete]
  cases hentry : calls.peek? key <;> simpa [hentry] using hsize

end PendingCalls

/-! ### Books -/

/-- What the counters of a probe are about. -/
structure Books where
  pending : PendingCalls
  watched : WatchSet
  /-- The counters, but for the paths that were cut. -/
  counters : Counters

/-- The start of an operation whose kind is traced. -/
def Step.isTraced (modes : Modes) : Step → Bool
  | .enter _ _ args => modes.events.contains args.kind && args.isTraced
  | _ => false

/-- The return of an operation. -/
def Step.isReturn : Step → Bool
  | .exit .. => true
  | _ => false

namespace Probe

/-- The books of a probe. -/
def books (p : Probe) : Books :=
  ⟨p.pending, p.watched, { p.counters with truncatedPaths := 0 }⟩

/-- Everything that one call can do to the books. -/
inductive Effect (p : Probe) : Step → Books → Prop
  /-- The start of an operation whose kind is not traced. -/
  | ignored (s : Surroundings) (i : Invocation) (args : Arguments)
      (h : ¬ (Step.enter s i args).isTraced p.modes) : Effect p (.enter s i args) p.books
  /-- A start that is traced, and not in scope. -/
  | filtered (s : Surroundings) (i : Invocation) (args : Arguments) (watched : WatchSet)
      (htraced : (Step.enter s i args).isTraced p.modes)
      (h : ¬ p.Accepts s i args) (hwatched : p.watched.Grows watched 0) :
      Effect p (.enter s i args)
        { p.books with watched, counters := p.books.counters.increment .filteredOut }
  /-- A start that is accepted. -/
  | kept (s : Surroundings) (i : Invocation) (args : Arguments) (watched : WatchSet)
      (call : PendingCall) (h : p.Accepts s i args)
      (hwatched : p.watched.Grows watched 0) :
      Effect p (.enter s i args)
        { pending := (p.pending.start i.caller.threadKey call).2
          watched
          counters := p.books.counters.incrementIf (p.victim i).isSome .pendingEvicted }
  /-- A return whose start is not known. -/
  | unmatched (s : Surroundings) (i : Invocation) (retval : Int64)
      (h : p.pending.peek? i.caller.threadKey = none) :
      Effect p (.exit s i retval)
        { p.books with
          pending := (p.pending.complete i.caller.threadKey).2
          counters := p.books.counters.increment .missingCorrelation }
  /-- A return that completes its call, and may bring one inode more into scope. -/
  | completed (s : Surroundings) (i : Invocation) (retval : Int64) (watched : WatchSet)
      (call : PendingCall) (added : Bool)
      (h : p.pending.peek? i.caller.threadKey = some call)
      (hwatched : p.watched.Grows watched added.toNat) :
      Effect p (.exit s i retval)
        { pending := (p.pending.complete i.caller.threadKey).2
          watched
          counters :=
            (p.books.counters.incrementIf added .inodesRegistered).increment .eventsEmitted }
  /-- An inode is watched on request. -/
  | watched (inode : Inode) :
      Effect p (.watch inode) { p.books with watched := (p.watched.register inode).2 }

/-! ### What is left alone -/

@[simp] theorem pending_books (p : Probe) : p.books.pending = p.pending := rfl

@[simp] theorem watched_books (p : Probe) : p.books.watched = p.watched := rfl

theorem get_books (p : Probe) {counter : Counter} (h : counter ≠ .truncatedPaths) :
    p.books.counters.get counter = p.counters.get counter := by
  cases counter with
  | truncatedPaths => exact absurd rfl h
  | _ => rfl

variable {p : Probe} {s : Surroundings} {i : Invocation} {args : Arguments} {retval : Int64}
  {call : PendingCall} {paths : PathBuffer}

theorem books_countIf {counter : Counter} (h : counter ≠ .truncatedPaths) (condition : Bool) :
    (p.countIf condition counter).books =
      { p.books with counters := p.books.counters.incrementIf condition counter } := by
  cases condition with
  | false => rfl
  | true =>
    cases counter with
    | truncatedPaths => exact absurd rfl h
    | _ => rfl

/-- Cut paths are not in the books. -/
theorem books_countIf_truncatedPaths (condition : Bool) :
    (p.countIf condition .truncatedPaths).books = p.books := by
  cases condition <;> rfl

theorem books_resolve (view : View) (drawn : DrawnKey) (d : Handle) (leaf : Location) :
    (p.resolve view drawn paths d leaf).2.2.books = p.books :=
  books_countIf_truncatedPaths _

theorem books_resolveRenameSource :
    (p.resolveRenameSource s paths call).2.2.books = p.books := by
  unfold resolveRenameSource
  simp only
  split
  · next h =>
    have hresolve := congrArg (fun r => r.2.2.books) h
    exact (books_countIf_truncatedPaths _).trans (hresolve.symm.trans (books_resolve _ _ _ _))
  · next h =>
    have hresolve := congrArg (fun r => r.2.2.books) h
    exact hresolve.symm.trans (books_resolve _ _ _ _)

theorem books_sourcePath : (p.sourcePath s paths call).2.2.books = p.books := by
  unfold sourcePath
  split
  · exact books_resolve _ _ _ _
  · rfl
  · rfl

theorem books_targetPath : (p.targetPath s paths call).2.2.books = p.books := by
  have hforget : (if call.event.kind = .rename then
      { p with resolver := p.resolver.forget call.event.targetLocation } else p).books =
        p.books := by
    split <;> rfl
  unfold targetPath
  simp only
  split
  · exact (books_resolve _ _ _ _).trans hforget
  · exact hforget

/-! ### One call -/

/-- What follows from a successful operation is at most one inode more. -/
theorem books_registerFollowup (hv : p.watched.inodes.Valid) (event : Event) :
    ∃ watched added, p.watched.Grows watched (Bool.toNat added) ∧
      (p.registerFollowup event).books =
        { p.books with
          watched
          counters := p.books.counters.incrementIf added .inodesRegistered } := by
  have hnothing : ∃ watched added, p.watched.Grows watched (Bool.toNat added) ∧
      p.books = { p.books with
        watched
        counters := p.books.counters.incrementIf added .inodesRegistered } :=
    ⟨p.watched, false, .refl hv, rfl⟩
  unfold registerFollowup
  simp only
  split
  · next inode hinode =>
    split
    · exact ⟨_, _, WatchSet.grows_register hv inode, books_countIf (by decide) _⟩
    · exact hnothing
  · exact hnothing

/-- A completed call is counted, and what it brings into scope. -/
theorem books_finish (hv : p.watched.inodes.Valid) :
    ∃ watched added, p.watched.Grows watched (Bool.toNat added) ∧
      (p.finish s i retval call).2.books =
        { p.books with
          watched
          counters :=
            (p.books.counters.incrementIf added .inodesRegistered).increment .eventsEmitted } := by
  -- until then, the paths are resolved, which is not in the books
  have hcount : ∀ {q : Probe} (event : Event), q.books = p.books →
      ∃ watched added, p.watched.Grows watched (Bool.toNat added) ∧
        ((q.registerFollowup event).count .eventsEmitted).books =
          { p.books with
            watched
            counters := (p.books.counters.incrementIf added .inodesRegistered).increment
              .eventsEmitted } := by
    intro q event hbooks
    have hwatched : q.watched = p.watched := congrArg Books.watched hbooks
    obtain ⟨watched, added, hgrows, hfollowup⟩ := books_registerFollowup (hwatched ▸ hv) event
    refine ⟨watched, added, hwatched ▸ hgrows, ?_⟩
    rw [count, books_countIf (by decide), hfollowup, hbooks]
    rfl
  simp only [finish]
  exact hcount _ (books_targetPath.trans books_sourcePath)

theorem grows_asked (hv : p.watched.inodes.Valid) (a : Accessor) (call : PendingCall) :
    p.watched.Grows (p.inScope a call).2.watched 0 := by
  have hsource := WatchSet.grows_inScope hv (a.inodeOf call.srcEntry)
    (a.parentInodeOf call.srcEntry)
  unfold inScope
  split
  · next h =>
    rw [h] at hsource
    exact hsource
  · next h =>
    rw [h] at hsource
    split
    · exact hsource.trans (WatchSet.grows_inScope hsource.valid _ _)
    · exact hsource

/-- A call that is kept may take the room of another one. -/
theorem books_park (p : Probe) (key : Nat) (call : PendingCall) :
    (p.park key call).books =
      { pending := (p.pending.start key call).2
        watched := p.watched
        counters := p.books.counters.incrementIf (p.pending.start key call).1.isSome
          .pendingEvicted } :=
  books_countIf (p := { p with pending := (p.pending.start key call).2 }) (by decide) _

theorem effect_park {watched : WatchSet} {q : Probe} (haccepts : p.Accepts s i args)
    (hgrows : p.watched.Grows watched 0) (hbooks : q.books = { p.books with watched }) :
    p.Effect (.enter s i args) (q.park i.caller.threadKey call).books := by
  have hpending : q.pending = p.pending := congrArg Books.pending hbooks
  have hwatched : q.watched = watched := congrArg Books.watched hbooks
  have hcounters : q.books.counters = p.books.counters := by rw [hbooks]
  rw [books_park, hpending, hwatched, hcounters, fst_start]
  exact .kept s i args watched call haccepts hgrows

/-- A start is ignored, counted or kept. -/
theorem effect_enter (hv : p.watched.inodes.Valid) :
    p.Effect (.enter s i args) (p.enter s i args).books := by
  have hgrows := grows_asked hv (s.view 1) (args.captured (s.view 0) i.caller)
  by_cases htraced : (p.modes.events.contains args.kind && args.isTraced) = true
  · by_cases haccepts : p.Accepts s i args
    · obtain ⟨watched, rfl, henter⟩ := enter_of_accepts haccepts
      rw [henter]
      simp only
      split
      · -- a rename brings its source's path along
        exact effect_park haccepts hgrows books_resolveRenameSource
      · exact effect_park haccepts hgrows rfl
    · obtain ⟨watched, scratch, hwatched, henter⟩ := enter_of_filtered htraced haccepts
      rw [henter, count, books_countIf (by decide)]
      exact .filtered s i args watched htraced haccepts (hwatched ▸ hgrows)
  · rw [enter_of_not_traced htraced]
    exact .ignored s i args htraced

/-- A return is not matched, or completes the call of its thread. -/
theorem effect_exit (hv : p.watched.inodes.Valid) :
    p.Effect (.exit s i retval) (p.exit s i retval).2.books := by
  cases hcall : p.pending.peek? i.caller.threadKey with
  | some call =>
    obtain ⟨watched, added, hgrows, hbooks⟩ := books_finish (p := p.takeOut i) (s := s) (i := i)
      hv
    rw [exit_eq hcall]
    exact hbooks ▸ .completed s i retval watched call added hcall hgrows
  | none =>
    rw [exit_eq_of_none hcall, count, books_countIf (by decide)]
    exact .unmatched s i retval hcall

/-- Every call has one of these effects. -/
theorem effect_next (hv : p.watched.inodes.Valid) (step : Step) :
    p.Effect step (p.next step).books := by
  cases step with
  | enter s i args => exact effect_enter hv
  | exit s i retval => exact effect_exit hv
  | watch inode => exact .watched inode

/-! ### What is counted of the calls -/

/-- Whether a start is accepted while the call of its thread is still in flight, as a number. -/
def overwrites (p : Probe) : Step → Nat
  | .enter s i args =>
    if p.Accepts s i args then (p.pending.peek? i.caller.threadKey).isSome.toNat else 0
  | _ => 0

/-- Whether an inode is watched on request that was not watched before, as a number. -/
def watchesAnew (p : Probe) : Step → Nat
  | .watch inode => (p.watch inode).1.toNat
  | _ => 0

/-- The records of a run, one after another. -/
def records (p : Probe) : List Step → List Emission
  | [] => []
  | step :: steps => (p.emission? step).toList ++ (p.next step).records steps

theorem length_records (steps : List Step) :
    (p.records steps).length =
      Run.total next (fun p step => (p.emission? step).toList.length) p steps := by
  induction steps generalizing p with
  | nil => rfl
  | cons step steps ih => rw [records, List.length_append, ih, Run.total]

/-! ### One call and its counters -/

theorem isTraced_of_accepts (h : p.Accepts s i args) :
    (Step.enter s i args).isTraced p.modes = true := Bool.and_eq_true_iff.2 ⟨h.1, h.2.1⟩

namespace Effect

variable {step : Step} {b : Books}

/-- Each return is counted as a record or as one whose start is not known. -/
theorem returns (h : p.Effect step b) :
    b.counters.get .eventsEmitted + b.counters.get .missingCorrelation =
      p.counters.get .eventsEmitted + p.counters.get .missingCorrelation +
        step.isReturn.toNat := by
  cases h with
  | ignored | filtered | watched => rfl
  | kept => simp [get_books, Counters.get_incrementIf, Step.isReturn]
  | unmatched => simp [get_books, Counters.get_increment, Step.isReturn, Nat.add_assoc]
  | completed =>
    simp [get_books, Counters.get_increment, Counters.get_incrementIf, Step.isReturn,
      Nat.add_right_comm]

/-- Each start that is traced is accepted, or counted as filtered out. -/
theorem starts (h : p.Effect step b) :
    b.counters.get .filteredOut + p.admits step =
      p.counters.get .filteredOut + (step.isTraced p.modes).toNat := by
  cases h with
  | ignored s i args h => simp [get_books, admits, mt isTraced_of_accepts h, h]
  | filtered s i args watched htraced h =>
    simp [get_books, Counters.get_increment, admits, htraced, h]
  | kept s i args watched call h =>
    simp [get_books, Counters.get_incrementIf, admits, isTraced_of_accepts h, h]
  | unmatched => simp [get_books, Counters.get_increment, admits, Step.isTraced]
  | completed =>
    simp [get_books, Counters.get_increment, Counters.get_incrementIf, admits, Step.isTraced]
  | watched => rfl

/-- Each call that is kept overwrites another one of its thread, or is still in flight, or was
completed, or had to make room. -/
theorem calls (hv : p.pending.Valid) (h : p.Effect step b) :
    b.counters.get .eventsEmitted + b.counters.get .pendingEvicted + b.pending.size +
        p.overwrites step =
      p.counters.get .eventsEmitted + p.counters.get .pendingEvicted + p.pending.size +
        p.admits step := by
  cases h with
  | ignored s i args h => simp [get_books, overwrites, admits, mt isTraced_of_accepts h]
  | filtered s i args watched htraced h =>
    simp [get_books, Counters.get_increment, overwrites, admits, h]
  | kept s i args watched call h =>
    have hsize := PendingCalls.size_start hv i.caller.threadKey call
    rw [fst_start] at hsize
    simp only [Counters.get_incrementIf, overwrites, admits, if_pos h, reduceCtorEq, if_false,
      if_true, ne_eq, not_false_eq_true, get_books]
    omega
  | unmatched s i retval h =>
    have hsize : (p.pending.complete i.caller.threadKey).2.size = p.pending.size := by
      simpa [h] using PendingCalls.size_complete p.pending i.caller.threadKey
    simp [get_books, Counters.get_increment, overwrites, admits, hsize]
  | completed s i retval watched call added h =>
    have hsize : (p.pending.complete i.caller.threadKey).2.size + 1 = p.pending.size := by
      simpa [h] using PendingCalls.size_complete p.pending i.caller.threadKey
    simp only [Counters.get_increment, Counters.get_incrementIf, overwrites, admits, ← hsize,
      reduceCtorEq, if_false, if_true, ne_eq, not_false_eq_true, get_books]
    omega
  | watched => rfl

/-- An inode that a set let in was watched on request, or followed from an operation. -/
theorem watches (hv : p.watched.inodes.Valid) (h : p.Effect step b) :
    b.watched.size + b.watched.inodes.evictions + p.counters.get .inodesRegistered =
      p.watched.size + p.watched.inodes.evictions + b.counters.get .inodesRegistered +
        p.watchesAnew step := by
  cases h with
  | ignored => rfl
  | filtered s i args watched htraced h hwatched =>
    simp [get_books, Counters.get_increment, watchesAnew, hwatched.held_eq]
  | kept s i args watched call h hwatched =>
    simp [get_books, Counters.get_incrementIf, watchesAnew, hwatched.held_eq]
  | unmatched => simp [get_books, Counters.get_increment, watchesAnew]
  | completed s i retval watched call added h hwatched =>
    simp only [Counters.get_increment, Counters.get_incrementIf, watchesAnew, hwatched.held_eq,
      reduceCtorEq, if_false, if_true, ne_eq, not_false_eq_true, get_books]
    omega
  | watched inode =>
    have hheld := (WatchSet.grows_register hv inode).held_eq
    simp only [watchesAnew, watch, hheld, ne_eq, reduceCtorEq, not_false_eq_true, get_books]
    omega

/-- Each record is counted. -/
theorem records (h : p.Effect step b) :
    b.counters.get .eventsEmitted =
      p.counters.get .eventsEmitted + (p.emission? step).toList.length := by
  cases h with
  | ignored | filtered | watched => rfl
  | kept => simp [get_books, Counters.get_incrementIf, emission?]
  | unmatched s i retval h => simp [get_books, Counters.get_increment, emission?, exit_of_none h]
  | completed s i retval watched call added h =>
    obtain ⟨emission, hemission, -⟩ : ∃ emission, (p.exit s i retval).1 = some emission ∧ _ :=
      exit_of_some h
    simp [get_books, Counters.get_increment, Counters.get_incrementIf, emission?, hemission]

end Effect

/-! ### Whole runs -/

variable {modes : Modes} {config : Config} {processors : Nat}

/-- The tables of a probe are valid, and it has these switches. -/
structure Tidy (modes : Modes) (p : Probe) : Prop where
  modes_eq : p.modes = modes
  pending : p.pending.Valid
  watched : p.watched.inodes.Valid

theorem tidy_new (hnew : Probe.new config processors = .ok p) :
    p.Tidy (.ofConfig config) where
  modes_eq := (fields_of_new hnew).1
  pending := (fields_of_new hnew).2.1 ▸ Table.valid_new _
  watched := (fields_of_new hnew).2.2 ▸ Table.valid_new _

theorem Effect.tidy {step : Step} {b : Books} (h : p.Tidy modes) (heffect : p.Effect step b) :
    b.pending.Valid ∧ b.watched.inodes.Valid := by
  cases heffect with
  | ignored => exact ⟨h.pending, h.watched⟩
  | filtered s i args watched htraced hrejected hwatched => exact ⟨h.pending, hwatched.valid⟩
  | kept s i args watched call haccepts hwatched =>
    exact ⟨Table.valid_insert h.pending _ _, hwatched.valid⟩
  | unmatched => exact ⟨Table.valid_remove h.pending _, h.watched⟩
  | completed s i retval watched call added hcall hwatched =>
    exact ⟨Table.valid_remove h.pending _, hwatched.valid⟩
  | watched inode => exact ⟨h.pending, (WatchSet.grows_register h.watched inode).valid⟩

theorem Tidy.next (h : p.Tidy modes) (step : Step) : (p.next step).Tidy modes := by
  obtain ⟨hpending, hwatched⟩ := (effect_next h.watched step).tidy h
  exact ⟨(congrArg Prod.fst settings_next).trans h.modes_eq, hpending, hwatched⟩

theorem counters_statistics (p : Probe) : p.statistics.counters = p.counters := by
  unfold statistics
  split <;> rfl

/-- The statistics account for the calls of a run, which began with a new probe. -/
structure Accounted (config : Config) (p : Probe) (steps : List Step) : Prop where
  /-- The returns. -/
  returns_eq : steps.countP Step.isReturn =
    (p.after steps).statistics.counters.eventsEmitted +
      (p.after steps).statistics.counters.missingCorrelation
  /-- The starts that are traced, some of which are kept. -/
  starts_eq : steps.countP (Step.isTraced (.ofConfig config)) =
    (p.after steps).statistics.counters.filteredOut + Run.total next admits p steps
  /-- The calls that are kept, and that they overwrote. -/
  calls_eq : Run.total next admits p steps = Run.total next overwrites p steps +
    ((p.after steps).statistics.counters.eventsEmitted +
      (p.after steps).statistics.counters.pendingEvicted + (p.after steps).pending.size)
  /-- The records. -/
  records_eq : (p.records steps).length = (p.after steps).statistics.counters.eventsEmitted
  /-- The inodes that were watched anew. -/
  watches_eq : Run.total next watchesAnew p steps +
    (p.after steps).statistics.counters.inodesRegistered =
      (p.after steps).watched.size + (p.after steps).watched.inodes.evictions

/-- **The statistics account for every call.** After any run of a new probe: each return is counted
as a record or as one whose start is not known; each start that is traced is kept, or counted as
filtered out; each call that is kept overwrites another one of its thread, or is still in flight, or
was completed, or had to make room; the records are those that were counted; and each inode that was
watched, on request or after an operation, is watched still or was dropped. -/
theorem statistics_account (hnew : Probe.new config processors = .ok p) (steps : List Step) :
    p.Accounted config steps := by
  have htidy := tidy_new hnew
  have hnext : ∀ q step, Tidy (.ofConfig config) q → Tidy (.ofConfig config) (q.next step) :=
    fun q step h => h.next step
  have heffect : ∀ q step, Tidy (.ofConfig config) q → q.Effect step (q.next step).books :=
    fun q step h => effect_next h.watched step
  have hreturns := Run.balance
    (fun q => q.counters.get .eventsEmitted + q.counters.get .missingCorrelation) (fun _ => 0)
    (fun _ step => step.isReturn.toNat) (fun _ _ => 0) _ hnext
    (fun q step h => (heffect q step h).returns) htidy steps
  have hstarts := Run.balance (fun q => q.counters.get .filteredOut) (fun _ => 0)
    (fun _ step => (step.isTraced (.ofConfig config)).toNat) admits _ hnext
    (fun q step h => h.modes_eq ▸ (heffect q step h).starts) htidy steps
  have hcalls := Run.balance
    (fun q => q.counters.get .eventsEmitted + q.counters.get .pendingEvicted + q.pending.size)
    (fun _ => 0) admits overwrites _ hnext
    (fun q step h => (heffect q step h).calls h.pending) htidy steps
  have hrecords := Run.balance (fun q => q.counters.get .eventsEmitted) (fun _ => 0)
    (fun q step => (q.emission? step).toList.length) (fun _ _ => 0) _ hnext
    (fun q step h => (heffect q step h).records) htidy steps
  have hwatches := Run.balance (fun q => q.watched.size + q.watched.inodes.evictions)
    (fun q => q.counters.get .inodesRegistered) watchesAnew (fun _ _ => 0) _ hnext
    (fun q step h => (heffect q step h).watches h.watched) htidy steps
  have hcounters : ∀ counter, p.counters.get counter = 0 := by
    rw [eq_of_new hnew]
    intro counter
    cases counter <;> rfl
  have hpending : p.pending.size = 0 := by
    rw [(fields_of_new hnew).2.1]
    rfl
  have hwatched : p.watched.size + p.watched.inodes.evictions = 0 := by
    rw [(fields_of_new hnew).2.2]
    rfl
  simp only [Run.total_toNat, Run.total_zero, ← length_records, hcounters, hpending, hwatched,
    Nat.zero_add, Nat.add_zero] at hreturns hstarts hcalls hrecords hwatches
  refine ⟨?_, ?_, ?_, ?_, ?_⟩ <;> rw [counters_statistics]
  · exact hreturns.symm
  · exact hstarts.symm
  · exact hcalls.symm.trans (Nat.add_comm _ _)
  · exact hrecords.symm
  · exact (Nat.add_comm _ _).trans hwatches.symm

/-- The only operation of a run, which is not filtered out, is still in flight or was completed, or
had to make room. Of two returns, each gave a record or was not matched. -/
theorem statistics_account_twice :
    ∃ p, Probe.new { filteringEnabled := false } 1 = .ok p ∧
      let steps := [.enter plain {} (.openFile ⟨0⟩ 1), .exit plain {} 0, .exit plain {} 0]
      let counters := (p.after steps).statistics.counters
      counters.eventsEmitted + counters.missingCorrelation = 2 ∧ counters.filteredOut = 0 ∧
        counters.eventsEmitted + counters.pendingEvicted + (p.after steps).pending.size = 1 := by
  obtain ⟨p, hnew⟩ : ∃ p, Probe.new { filteringEnabled := false } 1 = .ok p := ⟨_, rfl⟩
  have h := statistics_account hnew
    [.enter plain {} (.openFile ⟨0⟩ 1), .exit plain {} 0, .exit plain {} 0]
  have hadmits : Run.total next admits p
      [.enter plain {} (.openFile ⟨0⟩ 1), .exit plain {} 0, .exit plain {} 0] = 1 := by
    simp [Run.total, admits, accepts_openFile hnew]
  have hoverwrites : Run.total next overwrites p
      [.enter plain {} (.openFile ⟨0⟩ 1), .exit plain {} 0, .exit plain {} 0] = 0 := by
    simp [Run.total, overwrites, peek?_of_new hnew]
  have hstarts := h.starts_eq
  have hcalls := h.calls_eq
  rw [hadmits] at hstarts hcalls
  rw [hoverwrites, Nat.zero_add] at hcalls
  have htraced : [.enter plain {} (.openFile ⟨0⟩ 1), .exit plain {} 0, .exit plain {} 0].countP
      (Step.isTraced (.ofConfig { filteringEnabled := false })) = 1 := by decide
  refine ⟨p, hnew, h.returns_eq.symm, ?_, hcalls.symm⟩
  omega

end Probe

end FsTrace
