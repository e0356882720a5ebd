import FsTrace.Proofs.ClosedChains
import FsTrace.Proofs.FragmentCalls
import FsTrace.Proofs.PathOutcome
import FsTrace.Proofs.Retention

/-!
# Where a renamed entry is found

The return of a rename drops what is stored of the target's location before it resolves the target.
So its fragment is stored anew, as the first one of its walk. What the walk stores above it lets in
at most `maxPathDepth` more keys, for which a large enough table has room without coming to that
fragment; and the walk ends where it comes back to the entry, since its fragment is not detached
there.

* `FragmentStore.peek?_storeLevels_of_safe`: a walk leaves a safe fragment alone,
  `FragmentStore.peek?_resolve_forget`: what is stored of an entry that was dropped first;
* `Probe.Use`: a call of a handler, or a request to the table of fragments from outside;
  `Probe.KeepsFragments.used`: that table keeps its limits, whatever is done;
* `Probe.fragment?_exit_rename`: what the return of a rename leaves for its target.
-/

namespace FsTrace

/-! ### Walks above a safe fragment -/

namespace FragmentStore

variable {mount : MountId} {s s' : FragmentStore} {key leaf : Location} {levels : List Level}
  {level : Level} {fragment : Fragment} {ps : List Put} {n : Nat}

theorem Writes.bounded (h : Writes s ps s') (hb : s.table.Bounded) : s'.table.Bounded := by
  induction h with
  | done => exact hb
  | count _ _ ih => exact ih hb
  | look key _ ih => exact ih (hb.get key)
  | put key fragment _ ih => exact ih (hb.insert key fragment)

/-- Storing another fragment leaves a safe one alone, and safe. -/
theorem look_put_of_safe (hb : s.table.Bounded) (hsafe : s.table.SafeFor leaf (n + 1))
    (hne : key ≠ leaf) (fragment : Fragment) :
    ((s.look key).put key fragment).table.peek? leaf = s.table.peek? leaf ∧
      ((s.look key).put key fragment).table.SafeFor leaf n :=
  ⟨((hsafe.get key).peek?_insert (hb.get key) hne fragment).trans (peek?_look leaf),
    (hsafe.get key).insert (hb.get key) key fragment⟩

/-- A walk leaves the fragment of a key alone that is safe for all that the walk may store. It ends
where it comes to that key. -/
theorem peek?_storeLevels_of_safe (hb : s.table.Bounded)
    (hsafe : s.table.SafeFor leaf (levels.length + 1)) (hends : s.endsAt leaf = true) :
    (storeLevels mount s key levels).2.table.peek? leaf = s.table.peek? leaf := by
  induction levels generalizing s key with
  | nil =>
    rw [storeLevels]
    by_cases hstored : (s.table.peek? key).isSome
    · rw [markCut_of_stored hstored, peek?_look]
    · have hne : key ≠ leaf := by
        rintro rfl
        exact hstored hsafe.isSome
      rw [markCut_of_absent hstored, (look_put_of_safe hb hsafe hne _).1]
  | cons level above ih =>
    by_cases hstored : s.endsAt key = true
    · rw [storeLevels_of_stored hstored]
      exact peek?_look leaf
    · have hne : key ≠ leaf := by
        rintro rfl
        exact hstored hends
      obtain ⟨hpeek, hsafe'⟩ := look_put_of_safe hb hsafe hne
        (.ofName (parentLocation mount level) level.name)
      rw [storeLevels_of_missing (Bool.eq_false_of_not_eq_true hstored)]
      split
      · exact hpeek
      · have hends' : (s.visit mount key level).endsAt leaf = true := by
          rw [endsAt, visit, hpeek]
          exact hends
        exact (ih ((hb.get key).insert key _) hsafe' hends').trans hpeek

/-- A way up starts with the entry itself. -/
theorem ascent_eq_cons (view : View) (d : Handle) :
    ∃ above, ascent view d = (readLevel (view 0) d (.zero _)).1 :: above ∧
      above.length + 1 ≤ maxPathDepth := by
  obtain ⟨above, habove⟩ :
      ∃ above, ascent view d = (readLevel (view 0) d (.zero _)).1 :: above := by
    obtain ⟨depth, hdepth⟩ : ∃ depth, maxPathDepth = depth + 1 := ⟨_, rfl⟩
    rw [ascent, hdepth, climb]
    simp only
    split <;> exact ⟨_, rfl⟩
  have hlength := length_ascent_le view d
  rw [habove, List.length_cons] at hlength
  exact ⟨above, habove, hlength⟩

/-- An entry that was dropped first is stored as it is read, and its walk leaves that alone. -/
theorem peek?_resolve_forget (hb : s.table.Bounded)
    (hroom : (secondChances + 1) * maxPathDepth < s.table.capacity)
    (hleaf : leaf.hasNoInode = false) (view : View) (d : Handle) :
    ((s.forget leaf).resolve view d leaf).2.table.peek? leaf =
      some (.ofName (parentLocation leaf.mount (readLevel (view 0) d (.zero _)).1)
        (readLevel (view 0) d (.zero _)).1.name) := by
  obtain ⟨above, hascent, habove⟩ := ascent_eq_cons view d
  generalize (readLevel (view 0) d (.zero _)).1 = level at hascent ⊢
  have hforget : (s.forget leaf).table.Bounded := hb.remove leaf
  have habsent : (s.forget leaf).table.peek? leaf = none := Table.peek?_remove_self _ _
  have hstored : ((s.forget leaf).visit leaf.mount leaf level).table.peek? leaf =
      some (.ofName (parentLocation leaf.mount level) level.name) := peek?_put_self
  rw [resolve, hleaf, hascent, if_neg Bool.false_ne_true,
    storeLevels_of_missing (endsAt_of_absent habsent)]
  split
  · exact hstored
  · next hparent =>
    have hsafe : ((s.forget leaf).visit leaf.mount leaf level).table.SafeFor leaf maxPathDepth :=
      Table.safeFor_insert (hforget.get leaf) ((peek?_look leaf).trans habsent)
        (hroom.trans_eq ((Table.capacity_get _ _).trans capacity_forget).symm) _
    have hends : ((s.forget leaf).visit leaf.mount leaf level).endsAt leaf = true := by
      rw [endsAt, hstored, Option.any_some, Bool.not_eq_eq_eq_not, Bool.not_true,
        Bool.eq_false_iff]
      exact fun hdetached => hparent
        (Location.isNowhere_iff.2 (Fragment.parent_of_isDetached hdetached))
    exact (peek?_storeLevels_of_safe ((hforget.get leaf).insert leaf _) (hsafe.mono habove)
      hends).trans hstored

/-! ### What all walks keep -/

/-- A property of stores that no look-up and no drop ends. -/
structure Lasting (P : FragmentStore → Prop) : Prop where
  resolve {s : FragmentStore} (view : View) (d : Handle) (leaf : Location) :
    P s → P (s.resolve view d leaf).2
  forget {s : FragmentStore} (leaf : Location) : P s → P (s.forget leaf)

/-- A store whose table keeps its limits, with this capacity. -/
structure Sized (capacity : Nat) (s : FragmentStore) : Prop where
  bounded : s.table.Bounded
  capacity_eq : s.table.capacity = capacity

theorem lasting_sized (capacity : Nat) : Lasting (Sized capacity) where
  resolve view d leaf h := by
    obtain ⟨ps, -, hwrites⟩ := exists_writes_find _ ⟨view, d, leaf⟩
    exact ⟨hwrites.bounded h.bounded, hwrites.capacity_eq.trans h.capacity_eq⟩
  forget leaf h := ⟨h.bounded.remove leaf, capacity_forget.trans h.capacity_eq⟩

end FragmentStore

/-! ### Handlers -/

namespace WalkLog

variable {P : FragmentStore → Prop}

theorem store_source_of_lasting (hP : FragmentStore.Lasting P) (w : WalkLog) (s : Surroundings)
    (call : PendingCall) (hw : P w.store) :
    P (if call.srcPath = .unresolved then
      w.walk s.view call.srcEntry call.event.srcLocation else w).store := by
  split
  · exact hP.resolve _ _ _ hw
  · exact hw

theorem store_complete_of_lasting (hP : FragmentStore.Lasting P) (w : WalkLog) (s : Surroundings)
    (call : PendingCall) (hw : P w.store) : P (w.complete s call).store := by
  have hsource := store_source_of_lasting hP w s call hw
  have hforget : ∀ w : WalkLog, P w.store → P (if call.event.kind = .rename then
      w.forget call.event.targetLocation else w).store := by
    intro w hw
    split
    · exact hP.forget _ hw
    · exact hw
  unfold complete
  simp only
  split
  · exact hP.resolve _ _ _ (hforget _ hsource)
  · exact hforget _ hsource

/-- The return of a rename leaves the target as it is read at the start of its walk. -/
theorem peek?_complete_rename {w : WalkLog} {capacity : Nat} {s : Surroundings} {call : PendingCall}
    (hw : w.store.Sized capacity) (hroom : (secondChances + 1) * maxPathDepth < capacity)
    (hkind : call.event.kind = .rename) (hleaf : call.event.targetLocation.hasNoInode = false) :
    let level := (readLevel (s.view maxPathDepth) call.targetEntry (.zero _)).1
    (w.complete s call).store.table.peek? call.event.targetLocation =
      some (.ofName (FragmentStore.parentLocation call.event.targetLocation.mount level)
        level.name) := by
  have hsource := store_source_of_lasting (FragmentStore.lasting_sized capacity) w s call hw
  unfold complete
  simp only [hkind, if_true]
  exact FragmentStore.peek?_resolve_forget hsource.bounded
    (hroom.trans_eq hsource.capacity_eq.symm) hleaf _ _

end WalkLog

namespace Probe

variable {p : Probe} {w : WalkLog} {P : FragmentStore → Prop}

/-- What lasts in a store, every call of a handler keeps. -/
theorem Logs.next_of_lasting (hP : FragmentStore.Lasting P)
    (hmode : p.modes.resolution = .fragmentStore) (h : p.Logs w) (hw : P w.store) (step : Step) :
    ∃ w', (p.next step).Logs w' ∧ P w'.store := by
  cases step with
  | enter s i args =>
    by_cases hrename : p.Accepts s i args ∧ args.kind = .rename
    · exact ⟨_, h.enter_rename hmode hrename.1 hrename.2, hP.resolve _ _ _ hw⟩
    · exact ⟨w, h.enter_of_not hrename, hw⟩
  | exit s i retval =>
    cases hcall : p.pending.peek? i.caller.threadKey with
    | none => exact ⟨w, h.exit_of_none hcall, hw⟩
    | some call => exact ⟨_, h.exit hcall, WalkLog.store_complete_of_lasting hP _ _ _ hw⟩
  | watch inode => exact ⟨w, ⟨h.resolver_eq, h.truncatedPaths_eq⟩, hw⟩

/-! ### Requests from outside -/

/-- What is done with a probe: a handler is called, or its table of fragments is asked for
something. -/
inductive Use
  | call (step : Step)
  | ask (request : Table.Request Location Fragment)

/-- The probe after one use. -/
def use (p : Probe) : Use → Probe
  | .call step => p.next step
  | .ask request =>
    match p.resolver with
    | .fragmentStore s =>
      { p with resolver := .fragmentStore { s with table := s.table.next request } }
    | _ => p

theorem pending_ask (p : Probe) (request : Table.Request Location Fragment) :
    (p.use (.ask request)).pending = p.pending := by
  unfold use
  simp only
  split <;> rfl

/-- The probe after some uses. -/
def used (p : Probe) (uses : List Use) : Probe := uses.foldl use p

/-- The fragment that is stored under a key. -/
def fragment? (p : Probe) (key : Location) : Option Fragment :=
  p.resolver.fragments?.bind (Table.peek? · key)

theorem Logs.fragment?_eq (h : p.Logs w) (key : Location) :
    p.fragment? key = w.store.table.peek? key := by
  rw [fragment?, h.resolver_eq]
  rfl

/-- A probe that stores fragments, in a table that keeps its limits. -/
structure KeepsFragments (p : Probe) (capacity : Nat) : Prop where
  resolution_eq : p.modes.resolution = .fragmentStore
  sized : ∃ w, p.Logs w ∧ w.store.Sized capacity

variable {config : Config} {processors : Nat} {capacity : Nat}

theorem keepsFragments_new (hnew : Probe.new config processors = .ok p)
    (hmode : config.resolutionMode = .fragmentStore) :
    p.KeepsFragments (max config.capacities.pathFragments 1) := by
  refine ⟨?_, _, logs_new hnew hmode, Table.bounded_new _, rfl⟩
  rw [(fields_of_new hnew).1]
  exact hmode

theorem KeepsFragments.use (h : p.KeepsFragments capacity) (u : Use) :
    (p.use u).KeepsFragments capacity := by
  obtain ⟨hmode, w, hlogs, hsized⟩ := h
  cases u with
  | call step =>
    refine ⟨?_, hlogs.next_of_lasting (FragmentStore.lasting_sized capacity) hmode hsized step⟩
    exact (congrArg (·.1.resolution) settings_next).trans hmode
  | ask request =>
    have hask : p.use (.ask request) = { p with
        resolver := .fragmentStore { w.store with table := w.store.table.next request } } := by
      rw [Probe.use, hlogs.resolver_eq]
    rw [hask]
    exact ⟨hmode, ⟨{ w.store with table := w.store.table.next request }, w.cut⟩,
      ⟨rfl, hlogs.truncatedPaths_eq⟩, hsized.bounded.perform request,
      (Table.capacity_perform _ _).trans hsized.capacity_eq⟩

theorem KeepsFragments.used (h : p.KeepsFragments capacity) (uses : List Use) :
    (p.used uses).KeepsFragments capacity := by
  induction uses generalizing p with
  | nil => exact h
  | cons u uses ih => exact ih (h.use u)

/-! ### Renames -/

variable {a : Accessor} {i : Invocation} {call : PendingCall}

/-- **Renamed entries.** The return of a rename, in a tree that does not change meanwhile, stores
its target as it is read there: its name, as far as it fits and up to its first NUL, and where its
directory is, unless the entry is a boundary. That is found under the target's location afterwards,
whatever the table held before and however used that was. -/
theorem fragment?_exit_rename (hnew : Probe.new config processors = .ok p)
    (hmode : config.resolutionMode = .fragmentStore)
    (hcapacity : (secondChances + 1) * maxPathDepth < config.capacities.pathFragments)
    (uses : List Use) (hcall : (p.used uses).pending.peek? i.caller.threadKey = some call)
    (hkind : call.event.kind = .rename) (hinode : a.inodeOf call.targetEntry ≠ 0)
    (drawn : Nat → DrawnKey) (retval : Int64) :
    let target : Location := ⟨a.inodeOf call.targetEntry, a.mountOf call.targetDir⟩
    let level := (readLevel a call.targetEntry (.zero _)).1
    ∃ f, ((p.used uses).exit ⟨.still a, drawn⟩ i retval).2.fragment? target = some f ∧
      f.parent = (if level.isBoundary then .nowhere
        else ⟨a.parentInodeOf call.targetEntry, a.mountOf call.targetDir⟩) ∧
      f.name = Bytes.terminated (level.name.take (nameSize - 1)) ∧
      ∀ name, a.Copies name →
        (level.isBoundary ↔ (View.still a).EndsAt (fun _ => name) 0 call.targetEntry) ∧
        f.name = Bytes.terminated
          (((View.still a).nameAt (fun _ => name) 0 call.targetEntry).take (nameSize - 1)) := by
  obtain ⟨-, w, hlogs, hsized⟩ := (keepsFragments_new hnew hmode).used uses
  have hexit : ((p.used uses).exit ⟨.still a, drawn⟩ i retval).2.Logs _ := hlogs.exit hcall
  have hkind' : (readOutcome a retval call).event.kind = .rename :=
    (reports_readOutcome a).kind_eq.trans hkind
  have hlocation : (readOutcome a retval call).event.targetLocation =
      ⟨a.inodeOf call.targetEntry, a.mountOf call.targetDir⟩ := by
    rw [readOutcome, hkind]
    rfl
  have hleaf : (readOutcome a retval call).event.targetLocation.hasNoInode = false := by
    rw [hlocation]
    exact decide_eq_false hinode
  have hstored := WalkLog.peek?_complete_rename
    (s := { view := (View.still a).later 1, drawn }) hsized
    (hcapacity.trans_le (Nat.le_max_left _ _)) hkind' hleaf
  rw [hlocation, targetEntry_readOutcome] at hstored
  refine ⟨_, (hexit.fragment?_eq _).trans hstored, rfl, Fragment.name_ofName_eq _ _,
    fun name hcopies => ?_⟩
  have hlevel : (readLevel (View.still a 0) call.targetEntry (.zero _)).1 =
      (View.still a).levelAt (fun _ => name) 0 call.targetEntry := View.readLevel_eq hcopies _ _
  rw [View.still_apply] at hlevel
  constructor
  · rw [← View.isBoundary_levelAt, ← hlevel]
  · show (Fragment.ofName _ (readLevel a call.targetEntry (.zero _)).1.name).name = _
    rw [Fragment.name_ofName_eq, hlevel, View.levelAt, List.take_take, Nat.min_self]

/-- Entries in circles, on a machine that draws the key `1`. -/
def circling : Surroundings where
  view := .still carousel
  drawn _ := ⟨1, ne_zero_drawn_plain⟩

/-- All calls are traced, and their paths are stored as fragments. -/
def chaining : Config := { filteringEnabled := false, resolutionMode := .fragmentStore }

/-- A rename starts, and something else is stored under the target's location meanwhile. -/
def outdated : List Use :=
  [.call (.enter circling {} (.rename ⟨1⟩ ⟨2⟩ ⟨1⟩)), .ask (.insert ⟨1, 1⟩ (.ofName .nowhere [120]))]

/-- The fragment that lay there is replaced. The way up from the entry comes back to it, and the new
fragment stays. -/
theorem fragment?_exit_rename_outdated :
    ∃ p f, Probe.new chaining 1 = .ok p ∧
      ((p.used outdated).exit circling {} 0).2.fragment? ⟨1, 1⟩ = some f ∧
      f.parent = ⟨2, 1⟩ ∧ f.name = [110] := by
  obtain ⟨p, hnew⟩ : ∃ p, Probe.new chaining 1 = .ok p := ⟨_, rfl⟩
  obtain ⟨hmodes, -, hwatched⟩ := fields_of_new hnew
  have haccepts : p.Accepts circling {} (.rename ⟨1⟩ ⟨2⟩ ⟨1⟩) := by
    refine ⟨hmodes ▸ (by decide), rfl, Or.inl (Or.inl ?_)⟩
    rw [hwatched]
    rfl
  have hparked : (p.after [.enter circling {} (.rename ⟨1⟩ ⟨2⟩ ⟨1⟩)]).pending.peek? 0 =
      some (parked .fragmentStore circling {} (.rename ⟨1⟩ ⟨2⟩ ⟨1⟩)) := by
    have hmode : p.resolver.mode = .fragmentStore := by rw [resolver_of_new hnew]; rfl
    rw [← hmode]
    exact peek?_of_outstanding (hmode ▸ hmodes ▸ rfl) ⟨[], [], rfl, rfl, haccepts, id⟩
  have hcall : (p.used outdated).pending.peek? 0 =
      some (parked .fragmentStore circling {} (.rename ⟨1⟩ ⟨2⟩ ⟨1⟩)) :=
    (congrArg (Table.peek? · 0) (pending_ask _ _)).trans hparked
  obtain ⟨f, hf, hparent, hname, -⟩ := fragment?_exit_rename (a := carousel) (i := {}) hnew rfl
    (by decide) outdated hcall rfl (by decide) circling.drawn 0
  exact ⟨p, f, hnew, hf, hparent, hname⟩

end Probe

end FsTrace
