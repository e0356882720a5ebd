import FsTrace.Proofs.LoopingChains
import FsTrace.Proofs.PathOutcome

/-!
# Entries without an inode

All entries without an inode have the same key on a mount. A walk does not start at such a key, but
it goes on from each entry to the key of its directory. So a directory without an inode is stored
under the shared key, and whoever comes to that key later ends there.

* `FragmentStore.Identified`: nothing is stored under a key without an inode, and so no chain passes
  one (`Identified.of_mem`);
* `FragmentStore.Identifies`: the directory of each entry that a walk stores shows an inode;
  `FragmentStore.Throughout`: a property of all walks of a run;
* `FragmentStore.keepsApart_iff_identifies`: nothing is written or stored without an inode just when
  this is so in all walks;
* `FragmentStore.mixes_directories`: the path of a file with the name of another directory.
-/

namespace FsTrace

namespace FragmentStore

variable {s : FragmentStore} {mount : MountId} {key k : Location} {level : Level}
  {levels : List Level} {l : Lookup} {lookups : List Lookup}

/-! ### Keys that are written -/

/-- The puts of a walk are what it writes. -/
theorem map_key_puts (levels : List Level) :
    (puts mount s key levels).map Put.key = (written mount s key levels).map Prod.fst := by
  induction levels generalizing s key with
  | nil =>
    rw [puts, written]
    split <;> rfl
  | cons level above ih =>
    rw [puts, written]
    split
    · rfl
    · simp only [List.map_cons]
      split
      · rfl
      · rw [List.map_cons, ih]
        rfl

/-- What is stored after a look-up was stored before, or is written by it. -/
theorem isSome_of_find (h : ((s.find l).2.table.peek? k).isSome) :
    (s.table.peek? k).isSome ∨ k ∈ (l.writes s).map Prod.fst := by
  unfold find resolve at h
  unfold Lookup.writes
  split
  · next hinode =>
    rw [if_pos hinode] at h
    exact Or.inl h
  · next hinode =>
    rw [if_neg hinode, (writes_storeLevels _).isSome_iff, held_iff, map_key_puts] at h
    exact h.1

/-- A walk starts with a fragment under its key, if none is stored there. -/
theorem mem_written_of_absent (h : s.table.peek? key = none) (levels : List Level) :
    key ∈ (written mount s key levels).map Prod.fst := by
  cases levels with
  | nil => simp [written, h]
  | cons level above => simp [written_of_missing (endsAt_of_absent h)]

/-! ### Keys with an inode -/

/-- Nothing is stored under a key without an inode. -/
def Identified (s : FragmentStore) : Prop :=
  ∀ key, (s.table.peek? key).isSome → key.hasNoInode = false

/-- The directory of each entry that the walk stores shows an inode, unless the walk does not go on
to it: from a boundary, or without a mount. -/
def Identifies (s : FragmentStore) (l : Lookup) : Prop :=
  ∀ level ∈ l.levels.take (l.writes s).length,
    level.isBoundary = true ∨ level.parentInode ≠ 0 ∨ l.leaf.mount = 0

/-- Where a walk goes on to, if it does. -/
theorem parentLocation_iff :
    (parentLocation mount level).isNowhere = true ∨
        (parentLocation mount level).hasNoInode = false ↔
      level.isBoundary = true ∨ level.parentInode ≠ 0 ∨ mount = 0 := by
  by_cases hboundary : level.isBoundary = true
  · simp [parentLocation, hboundary]
  · simp only [parentLocation, hboundary, Location.isNowhere, Location.hasNoInode]
    simp
    tauto

theorem identified_new (capacity : Nat) : (new capacity).Identified := by
  intro key hkey
  have hnone : (new capacity).table.peek? key = none := Table.peek?_new _ _
  rw [hnone] at hkey
  cases hkey

theorem Identified.visit (hs : s.Identified) (hkey : key.hasNoInode = false) :
    (s.visit mount key level).Identified := by
  intro k hk
  rw [FragmentStore.visit, isSome_put_iff, peek?_look] at hk
  rcases hk with rfl | ⟨hold, -⟩
  · exact hkey
  · exact hs k hold

theorem Identified.peek?_eq_none (hs : s.Identified) (hk : k.hasNoInode = true) :
    s.table.peek? k = none := by
  by_contra hstored
  exact Bool.false_ne_true ((hs k (Option.isSome_iff_ne_none.2 hstored)).symm.trans hk)

/-- A walk on a mount writes no key without an inode, just when it comes to none. -/
theorem Identified.written_iff (hs : s.Identified) (hkey : key.hasNoInode = false) :
    (∀ w ∈ written mount s key levels, w.1.hasNoInode = false) ↔
      ∀ level ∈ levels.take (written mount s key levels).length,
        level.isBoundary = true ∨ level.parentInode ≠ 0 ∨ mount = 0 := by
  induction levels generalizing s key with
  | nil =>
    rw [written]
    split <;> simp [hkey]
  | cons level above ih =>
    cases hends : s.endsAt key with
    | true => simp [written_of_stored hends]
    | false =>
      rw [written_of_missing hends, List.length_cons, List.take_succ_cons, List.forall_mem_cons,
        List.forall_mem_cons, and_iff_right hkey, ← parentLocation_iff]
      by_cases hroot : (parentLocation mount level).isNowhere = true
      · simp [hroot]
      · rw [if_neg hroot, or_iff_right hroot]
        cases hnext : (parentLocation mount level).hasNoInode with
        | false => rw [and_iff_right rfl, ih (hs.visit hkey) hnext]
        | true =>
          -- nothing is stored there yet, so the walk goes on with a fragment under that key
          have hmem : parentLocation mount level ∈ (written mount (s.visit mount key level)
              (parentLocation mount level) above).map Prod.fst :=
            mem_written_of_absent ((hs.visit hkey).peek?_eq_none hnext) above
          obtain ⟨w, hw, hkey'⟩ := List.mem_map.1 hmem
          refine iff_of_false (fun hall => ?_) (fun hall => Bool.false_ne_true hall.1.symm)
          exact Bool.false_ne_true ((hall w hw).symm.trans (hkey' ▸ hnext))

/-! ### Runs -/

theorem Identified.identifies_iff (hs : s.Identified) :
    s.Identifies l ↔ ∀ w ∈ l.writes s, w.1.hasNoInode = false := by
  rw [Identifies, Lookup.writes]
  split
  · simp
  · next hinode => exact (hs.written_iff (Bool.eq_false_of_not_eq_true hinode)).symm

theorem Identified.find (hs : s.Identified) (h : ∀ w ∈ l.writes s, w.1.hasNoInode = false) :
    (s.find l).2.Identified := by
  intro k hk
  rcases isSome_of_find hk with hold | hnew
  · exact hs k hold
  · obtain ⟨w, hw, rfl⟩ := List.mem_map.1 hnew
    exact h w hw

/-- Chains pass only keys with an inode. -/
theorem Identified.of_mem (hs : s.Identified) {keys : List Location} {last : Fragment}
    (h : s.Passes key keys last) (hk : k ∈ keys) : k.hasNoInode = false := by
  induction h with
  | last hf _ =>
    rw [List.mem_singleton.1 hk]
    exact hs _ (hf ▸ rfl)
  | link hf _ _ ih =>
    rcases List.mem_cons.1 hk with rfl | hk
    · exact hs _ (hf ▸ rfl)
    · exact ih hk

/-- A look-up writes nothing under a key without an inode. After it nothing is stored there, and no
chain passes such a key. -/
structure KeepsApart (s : FragmentStore) (l : Lookup) : Prop where
  written : ∀ w ∈ l.writes s, w.1.hasNoInode = false
  stored : (s.find l).2.Identified
  passed : ∀ key keys last, (s.find l).2.Passes key keys last → ∀ k ∈ keys, k.hasNoInode = false

/-- All look-ups of a run have a property, each with the store that it finds. -/
def Throughout (each : FragmentStore → Lookup → Prop) (s : FragmentStore) : List Lookup → Prop
  | [] => True
  | l :: lookups => each s l ∧ Throughout each (s.find l).2 lookups

theorem Identified.keepsApart_iff (hs : s.Identified) : s.KeepsApart l ↔ s.Identifies l := by
  rw [hs.identifies_iff]
  refine ⟨KeepsApart.written, fun hwrites => ?_⟩
  have hfind := hs.find hwrites
  exact ⟨hwrites, hfind, fun _ _ _ hpasses _ => hfind.of_mem hpasses⟩

theorem Identified.throughout_iff (hs : s.Identified) :
    Throughout KeepsApart s lookups ↔ Throughout Identifies s lookups := by
  induction lookups generalizing s with
  | nil => rfl
  | cons l lookups ih =>
    rw [Throughout, Throughout, ← hs.keepsApart_iff]
    exact and_congr_right fun hfirst => ih hfirst.stored

/-- **Keys without an inode.** Entries are looked up one after another in an empty store, whatever
is read on the way. Nothing is ever written or stored under a key without an inode, and no chain
passes one, just when no walk stores an entry whose directory it goes on to without an inode. -/
theorem keepsApart_iff_identifies (capacity : Nat) (lookups : List Lookup) :
    Throughout KeepsApart (new capacity) lookups ↔ Throughout Identifies (new capacity) lookups :=
  (identified_new capacity).throughout_iff

/-! ### Two directories under one key -/

/-- The names of five entries: the root `/`, its directories `a` and `b`, and the files `f` and `g`
in them. -/
def twinsName (d : Handle) : Bytes :=
  match d.id with
  | 2 => [97]
  | 3 => [98]
  | 4 => [102]
  | 5 => [103]
  | _ => [Bytes.slash]

/-- These entries. The inode of `a` cannot be read, and `b` has none yet. -/
def twins : Accessor where
  name d size := some ⟨(twinsName d).take size, ((twinsName d).take size).length⟩
  parent d := some ⟨if d.id = 4 then 2 else if d.id = 5 then 3 else 1⟩
  inode d := if d.id = 2 then none else some (if d.id = 3 then 0 else d.id)
  mount _ := some 7
  device _ := some 1

/-- One of the files. -/
def below (id : Nat) : Lookup := ⟨.still twins, ⟨id⟩, ⟨id, 7⟩⟩

/-- What is read of a file. -/
def fileLevel (id dir : Nat) : Level := ⟨⟨id⟩, twinsName ⟨id⟩, id, ⟨dir⟩, 0⟩

/-- What is read of a directory in the root. -/
def dirLevel (id : Nat) : Level := ⟨⟨id⟩, twinsName ⟨id⟩, 0, ⟨1⟩, 1⟩

/-- What is read of the root. -/
def rootLevel : Level := ⟨⟨1⟩, twinsName ⟨1⟩, 1, ⟨1⟩, 1⟩

theorem levels_below :
    (below 4).levels = [fileLevel 4 2, dirLevel 2, rootLevel] ∧
      (below 5).levels = [fileLevel 5 3, dirLevel 3, rootLevel] := by
  have hcopies : twins.Copies twinsName := by
    intro d size read hread
    obtain rfl := Option.some.inj hread
    exact ⟨rfl, rfl⟩
  have hlevels : ∀ id, (below id).levels =
      ((View.still twins).visited (fun _ => twinsName) 0 ⟨id⟩ maxPathDepth).mapIdx
        fun k e => (View.still twins).levelAt (fun _ => twinsName) (0 + k) e :=
    fun id => View.climb_later (fun _ => hcopies) 0 ⟨id⟩ (.zero _) maxPathDepth
  rw [hlevels, hlevels]
  decide

theorem name_twins (parent : Location) (d : Handle) :
    (Fragment.ofName parent (twinsName d)).name = twinsName d := by
  have hname : 0 ∉ twinsName d ∧ (twinsName d).length ≤ nameSize - 1 := by
    unfold twinsName
    split <;> decide
  rw [Fragment.name_ofName hname.1, List.take_of_length_le hname.2]

/-- A key stays absent while others are stored. -/
theorem peek?_visit_of_absent (h : s.table.peek? k = none) (hne : key ≠ k) :
    (s.visit mount key level).table.peek? k = none := by
  rw [← Option.not_isSome_iff_eq_none, visit, isSome_put_iff, peek?_look, h]
  simp [hne]

/-- A walk stores an absent entry and goes on to its directory. -/
theorem written_up {next : Location} (habsent : s.table.peek? key = none)
    (hnext : parentLocation mount level = next) (hne : next ≠ .nowhere) (above : List Level) :
    written mount s key (level :: above) =
      (key, .ofName next level.name) :: written mount (s.visit mount key level) next above := by
  rw [written_of_missing (endsAt_of_absent habsent), hnext,
    if_neg (mt Location.isNowhere_iff.1 hne)]

/-- The fragments of `f`, of its directory and of the root. The directory has no inode. -/
def upFromF : List (Location × Fragment) :=
  [(⟨4, 7⟩, .ofName ⟨0, 7⟩ (twinsName ⟨4⟩)), (⟨0, 7⟩, .ofName ⟨1, 7⟩ (twinsName ⟨2⟩)),
    (⟨1, 7⟩, .ofName .nowhere (twinsName ⟨1⟩))]

theorem writes_below_first : (below 4).writes (new 152) = upFromF := by
  have hnone : ∀ k, (new 152).table.peek? k = none := fun k => Table.peek?_new _ _
  have hdir : ((new 152).visit 7 ⟨4, 7⟩ (fileLevel 4 2)).table.peek? ⟨0, 7⟩ = none :=
    peek?_visit_of_absent (hnone _) (by decide)
  have hroot : (((new 152).visit 7 ⟨4, 7⟩ (fileLevel 4 2)).visit 7 ⟨0, 7⟩ (dirLevel 2)).table.peek?
      ⟨1, 7⟩ = none :=
    peek?_visit_of_absent (peek?_visit_of_absent (hnone _) (by decide)) (by decide)
  rw [Lookup.writes, levels_below.1]
  refine (written_up (hnone _) rfl (by decide) _).trans (congrArg _ ?_)
  refine (written_up hdir rfl (by decide) _).trans (congrArg _ ?_)
  exact written_of_missing (endsAt_of_absent hroot) rootLevel []

/-- What is stored after that walk: room for it was there. -/
theorem below_first :
    ((new 152).find (below 4)).2.Unswept ∧
      ((new 152).find (below 4)).2.inserted ≤ 76 ∧
      ((new 152).find (below 4)).2.table.capacity = 152 ∧
      ∀ k, ((new 152).find (below 4)).2.table.peek? k = leave k none upFromF := by
  obtain ⟨hunswept, hinserted, hcapacity⟩ :=
    (unswept_new 152).perform (.resolve (below 4)) (by decide)
  refine ⟨hunswept, hinserted, hcapacity, fun k => ?_⟩
  have hnone : (new 152).table.peek? k = none := Table.peek?_new _ _
  rw [peek?_find hunswept.evictions_eq.le, writes_below_first, hnone]

/-- The walk from `g` ends at the directory of `f`. -/
theorem writes_below_second :
    (below 5).writes ((new 152).find (below 4)).2 =
      [(⟨5, 7⟩, .ofName ⟨0, 7⟩ (twinsName ⟨5⟩))] := by
  obtain ⟨hunswept, hinserted, hcapacity, hpeek⟩ := below_first
  generalize ((new 152).find (below 4)).2 = s at *
  have hkept : (s.visit 7 ⟨5, 7⟩ (fileLevel 5 3)).table.evictions ≤ s.table.evictions :=
    (hunswept.visit (by omega)).evictions_eq.trans_le (Nat.zero_le _)
  have hends : (s.visit 7 ⟨5, 7⟩ (fileLevel 5 3)).endsAt ⟨0, 7⟩ = true := by
    rw [endsAt, peek?_visit_of_kept hkept, if_neg (by decide), hpeek]
    decide
  rw [Lookup.writes, levels_below.2]
  refine (written_up (hpeek _) rfl (by decide) _).trans (congrArg _ ?_)
  exact written_of_stored hends _ _

/-- **Two directories under one key.** The walk from `f` stores its directory `a` under the key that
all entries without an inode share. The walk from `g` takes it for its own directory `b`, and so the
path of `g` is followed through `a`. -/
theorem mixes_directories :
    let s := (new 152).after [.resolve (below 4), .resolve (below 5)]
    s.table.evictions = 0 ∧ (s.table.peek? ⟨0, 7⟩).isSome ∧
      Follows s.table ⟨5, 7⟩ [twinsName ⟨5⟩, twinsName ⟨2⟩, twinsName ⟨1⟩] ∧
      twins.parentOf ⟨5⟩ = ⟨3⟩ ∧ twinsName ⟨3⟩ ≠ twinsName ⟨2⟩ := by
  intro s
  have hkept : s.table.evictions = 0 := evictions_after_eq_zero (by decide)
  have hpeek : ∀ k, s.table.peek? k =
      leave k (leave k none upFromF) [(⟨5, 7⟩, .ofName ⟨0, 7⟩ (twinsName ⟨5⟩))] := by
    intro k
    obtain ⟨hunswept, -, -, hfirst⟩ := below_first
    rw [← hfirst, ← writes_below_second]
    exact peek?_find (hkept.trans hunswept.evictions_eq.symm).le
  have hroot : Follows s.table ⟨1, 7⟩ [twinsName ⟨1⟩] := by
    rw [← name_twins .nowhere ⟨1⟩]
    exact .last (hpeek ⟨1, 7⟩) rfl
  have hdir : Follows s.table ⟨0, 7⟩ [twinsName ⟨2⟩, twinsName ⟨1⟩] := by
    rw [← name_twins ⟨1, 7⟩ ⟨2⟩]
    exact .link (hpeek ⟨0, 7⟩) (by decide) hroot
  refine ⟨hkept, (congrArg Option.isSome (hpeek ⟨0, 7⟩)).trans rfl, ?_, rfl, by decide⟩
  rw [← name_twins ⟨0, 7⟩ ⟨5⟩]
  exact .link (hpeek ⟨5, 7⟩) (by decide) hdir

end FragmentStore

end FsTrace
