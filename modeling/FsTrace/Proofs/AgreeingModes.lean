import FsTrace.Proofs.LinkedChains
import FsTrace.Proofs.ParkedCalls
import FsTrace.Proofs.PathNames

/-!
# Three ways to hand a path over

What the resolution modes make of the same entry of a tree that does not change.

* `Accessor.DistinctAbove`: the entries visited on the way up have inodes of their own;
* `FragmentStore.storeLevels_of_ascends`: what a walk over such entries stores, and that it can be
  followed to the end;
* `Resolver.resolve_agree`: a path stored whole is a front of the path as it is recorded, and the
  same if it is not cut short. A chain of fragments gives the same names.
-/

namespace FsTrace

/-- The entries that are visited on the way up have inodes, and no two of them the same. -/
def Accessor.DistinctAbove (a : Accessor) (d : Handle) : Prop :=
  ((ascent (.still a) d).map (·.inode)).Nodup ∧ ∀ level ∈ ascent (.still a) d, level.inode ≠ 0

namespace FragmentStore

variable {mount : MountId} {s : FragmentStore} {key : Location} {levels : List Level}

/-- A walk over entries with inodes of their own, none of which is stored, reaches the boundary. It
stores nothing else, and its fragments can be followed. -/
theorem storeLevels_of_ascends (h : Ascends levels)
    (hkey : ∀ level ∈ levels.head?, key = ⟨level.inode, mount⟩)
    (hdistinct : (levels.map (·.inode)).Nodup) (hinodes : ∀ level ∈ levels, level.inode ≠ 0)
    (hnames : ∀ level ∈ levels, 0 ∉ level.name ∧ level.name.length < nameSize)
    (habsent : ∀ level ∈ levels, s.table.peek? ⟨level.inode, mount⟩ = none)
    (hkept : (storeLevels mount s key levels).2.table.evictions ≤ s.table.evictions) :
    (storeLevels mount s key levels).1 = false ∧
      (∀ k : Location, (∀ level ∈ levels, ⟨level.inode, mount⟩ ≠ k) →
        (storeLevels mount s key levels).2.table.peek? k = s.table.peek? k) ∧
      Follows (storeLevels mount s key levels).2.table key (levels.map (·.name)) := by
  -- the name of a stored fragment is the one that was read
  have hfragment : ∀ level ∈ levels, ∀ parent, (Fragment.ofName parent level.name).name =
      level.name := by
    intro level hlevel parent
    obtain ⟨hnul, hlength⟩ := hnames level hlevel
    rw [Fragment.name_ofName hnul, List.take_of_length_le (Nat.le_sub_one_of_lt hlength)]
  induction h generalizing s key with
  | @boundary level hboundary =>
    obtain rfl := hkey level rfl
    have hmissing := endsAt_of_absent (habsent level List.mem_cons_self)
    have hparent : parentLocation mount level = .nowhere := if_pos hboundary
    rw [storeLevels_of_missing hmissing, hparent, if_pos Location.isNowhere_nowhere] at hkept ⊢
    have hvisit := fun k => peek?_visit_of_kept (k := k) hkept
    refine ⟨rfl, fun k hk => ?_, ?_⟩
    · rw [hvisit, if_neg (hk level List.mem_cons_self)]
    · have hstored := (hvisit ⟨level.inode, mount⟩).trans (if_pos rfl)
      have hfollows := Follows.last hstored hparent
      rwa [hfragment level List.mem_cons_self] at hfollows
  | @step level next above hinner hnext _ ih =>
    obtain rfl := hkey level rfl
    have hmissing := endsAt_of_absent (habsent level List.mem_cons_self)
    have hparent : parentLocation mount level = ⟨next.inode, mount⟩ := by
      rw [parentLocation, if_neg (ne_true_of_eq_false hinner), hnext]
    have hnextInode : next.inode ≠ 0 := hinodes next (by simp)
    have hne : (⟨next.inode, mount⟩ : Location) ≠ .nowhere :=
      fun heq => hnextInode (congrArg Location.inode heq)
    rw [storeLevels_of_missing hmissing, hparent, if_neg (mt Location.isNowhere_iff.1 hne)]
      at hkept ⊢
    have hkeptVisit := evictions_le_storeLevels.trans hkept
    have hvisit := fun k => peek?_visit_of_kept (k := k) hkeptVisit
    rw [List.map_cons, List.nodup_cons] at hdistinct
    have hapart : ∀ other ∈ next :: above, other.inode ≠ level.inode := fun other hother heq =>
      hdistinct.1 (List.mem_map.2 ⟨other, hother, heq⟩)
    have habsent' : ∀ other ∈ next :: above,
        (s.visit mount ⟨level.inode, mount⟩ level).table.peek? ⟨other.inode, mount⟩ = none := by
      intro other hother
      rw [hvisit, if_neg fun heq => hapart other hother (congrArg Location.inode heq).symm]
      exact habsent other (List.mem_cons_of_mem _ hother)
    obtain ⟨hfinished, hothers, hfollows⟩ := ih (by simp) hdistinct.2
      (fun other hother => hinodes other (List.mem_cons_of_mem _ hother))
      (fun other hother => hnames other (List.mem_cons_of_mem _ hother)) habsent'
      (hkept.trans evictions_le_visit)
      (fun other hother => hfragment other (List.mem_cons_of_mem _ hother))
    refine ⟨hfinished, fun k hk => ?_, ?_⟩
    · obtain ⟨hown, habove⟩ := List.forall_mem_cons.1 hk
      rw [hothers k habove, hvisit, if_neg hown]
    · -- the walk goes on above, and leaves this fragment as it is
      have hstored := (hothers ⟨level.inode, mount⟩ fun other hother heq =>
        hapart other hother (congrArg Location.inode heq)).trans
          ((hvisit ⟨level.inode, mount⟩).trans (if_pos rfl))
      have hup : (Fragment.ofName (parentLocation mount level) level.name).parent =
          ⟨next.inode, mount⟩ := hparent
      have hlink := Follows.link hstored (hup.trans_ne hne) (by rw [hup]; exact hfollows)
      rwa [hfragment level List.mem_cons_self] at hlink

end FragmentStore

namespace Resolver

variable {a : Accessor} {paths : PathBuffer} {d : Handle}

/-- A chain is stored to its end when the path could be recorded to its end, no two of its entries
share a location, and there is room. -/
theorem fragmentStore_resolve (hreads : a.ReadsNames) (hnul : a.NulFree)
    (hdistinct : a.DistinctAbove d)
    (hwhole : cutShort pathBufferSize 0 (ascent (.still a) d) = false) {s : FragmentStore}
    (hempty : s.table.size = 0) (hroom : maxPathDepth + 1 ≤ s.table.capacity) (mount : MountId) :
    (s.resolve (.still a) d ⟨a.inodeOf d, mount⟩).1 = false ∧
      Follows (s.resolve (.still a) d ⟨a.inodeOf d, mount⟩).2.table ⟨a.inodeOf d, mount⟩
        ((ascent (.still a) d).map (·.name)) := by
  obtain ⟨hnodup, hinodes⟩ := hdistinct
  have hascends : Ascends (ascent (.still a) d) := ascends_climb hwhole
  obtain ⟨first, above, hlevels⟩ := hascends.exists_cons
  have hfirst : first.inode = a.inodeOf d := inode_of_climb hlevels
  have hinode : a.inodeOf d ≠ 0 := hfirst ▸ hinodes first (hlevels ▸ List.mem_cons_self)
  have hkey : ∀ level ∈ (ascent (.still a) d).head?,
      (⟨a.inodeOf d, mount⟩ : Location) = ⟨level.inode, mount⟩ := by
    intro level hlevel
    rw [hlevels] at hlevel
    rw [← Option.some.inj hlevel, hfirst]
  have hresolve : s.resolve (.still a) d ⟨a.inodeOf d, mount⟩ =
      s.storeLevels mount ⟨a.inodeOf d, mount⟩ (ascent (.still a) d) := by
    rw [FragmentStore.resolve, if_neg (by simpa [Location.hasNoInode] using hinode)]
  have hputs : (s.puts mount ⟨a.inodeOf d, mount⟩ (ascent (.still a) d)).length ≤
      maxPathDepth + 1 :=
    (FragmentStore.length_puts_le _).trans (Nat.succ_le_succ (length_ascent_le _ _))
  have hkept : (s.storeLevels mount ⟨a.inodeOf d, mount⟩ (ascent (.still a) d)).2.table.evictions =
      s.table.evictions :=
    (FragmentStore.writes_storeLevels _).evictions_of_room (by omega)
  obtain ⟨hfinished, -, hfollows⟩ := FragmentStore.storeLevels_of_ascends hascends hkey hnodup
    hinodes (fun level hlevel => name_of_mem_climb hreads hnul hlevel)
    (fun level _ => Table.peek?_of_empty hempty _) hkept.le
  rw [hresolve]
  exact ⟨hfinished, hfollows⟩

/-- **The three modes agree.** A tree does not change, its names are read as they are, and they hold
no NUL. An entry is resolved in each mode, with an empty buffer where the path is recorded.

The path that is stored whole is a front of the recorded one that ends with the NUL of a name. It is
cut short if the recorded path is, and is the same if it is not cut short itself. If the recorded
path is not cut short and the entries on the way up have inodes of their own, then neither is the
chain that an empty table with room for one more than the greatest depth gets. Following it from the
location of the entry gives the names of the recorded path, and at the end an empty name just when
the last entry on the way up has none. -/
theorem resolve_agree (hreads : a.ReadsNames) (hnul : a.NulFree) (d : Handle)
    (hempty : paths.filled = []) (table : WholePaths) (drawn : DrawnKey) (paths' : PathBuffer)
    (leaf : Location) :
    let written := inlineBuffer.resolve (.still a) drawn paths d leaf
    let whole := (singleFragment table).resolve (.still a) drawn paths' d leaf
    (∃ stored : WholePath,
      whole.resolver.wholePaths?.bind (·.peek? drawn.key) = some stored ∧
        stored.bytes <+: written.paths.filled ∧ (∀ last ∈ stored.bytes.getLast?, last = 0) ∧
        Bytes.segments stored.bytes <+: Bytes.segments written.paths.filled ∧
        (whole.truncated = false → stored.bytes = written.paths.filled)) ∧
      (written.truncated = true → whole.truncated = true) ∧
      (written.truncated = false → a.DistinctAbove d → ∀ (s : FragmentStore) (mount : MountId),
        s.table.size = 0 → maxPathDepth + 1 ≤ s.table.capacity →
        let location : Location := ⟨a.inodeOf d, mount⟩
        let chained := (fragmentStore s).resolve (.still a) drawn paths' d location
        chained.truncated = false ∧ ∃ fragments, chained.resolver.fragments? = some fragments ∧
          Follows fragments location (Bytes.segments written.paths.filled ++
            if (ascent (.still a) d).getLast?.any (·.name.isEmpty) then [[]] else [])) := by
  intro written whole
  obtain ⟨hfilled, htruncated⟩ : written.paths.filled = _ ∧ written.truncated = _ :=
    resolve_inlineBuffer hempty
  have hcut : whole.truncated = cutShort wholePathSize 0 (ascent (.still a) d) :=
    truncated_singleFragment table
  have hstored : whole.resolver.wholePaths? = _ :=
    congrArg Resolver.wholePaths? (resolve_singleFragment table)
  have hnames : ∀ level ∈ ascent (.still a) d, 0 ∉ level.name ∧ level.name.length < nameSize :=
    fun level hlevel => name_of_mem_climb hreads hnul hlevel
  obtain ⟨⟨rest, hrest⟩, hsame⟩ := pathNames_of_le
    (show wholePathSize ≤ pathBufferSize by decide) 0 (ascent (.still a) d)
  rw [hfilled, htruncated, hcut, segments_pathBytes hnames]
  refine ⟨⟨wholePath (.still a) d, ?_, ?_, ?_, ?_, fun hwhole => ?_⟩, fun hcut => ?_,
    fun hwhole hdistinct s mount hsize hroom => ?_⟩
  · rw [hstored]
    exact Table.peek?_insert_self _ _ _
  · rw [bytes_wholePath, pathBytes_eq, pathBytes_eq, ← hrest, List.flatMap_append]
    exact List.prefix_append _ _
  · intro last hlast
    rw [bytes_wholePath] at hlast
    exact eq_zero_of_mem_getLast? hlast
  · rw [bytes_wholePath, segments_pathBytes hnames]
    exact ⟨rest, hrest⟩
  · rw [bytes_wholePath, pathBytes_eq, pathBytes_eq, (hsame hwhole).2]
  · by_contra hwhole
    rw [(hsame (Bool.eq_false_of_not_eq_true hwhole)).1] at hcut
    cases hcut
  · obtain ⟨hfinished, hfollows⟩ :=
      fragmentStore_resolve hreads hnul hdistinct hwhole hsize hroom mount
    have hascends : Ascends (ascent (.still a) d) := ascends_climb hwhole
    rw [hascends.map_name hwhole] at hfollows
    exact ⟨hfinished, _, rfl, hfollows⟩

/-- Numbers as entries, each one inside the number before it. They are named `a`, but for the first
one, which has no name. -/
def unrooted : Accessor where
  name d size :=
    let name : Bytes := if d.id = 0 then [] else [97]
    some ⟨name.take size, (name.take size).length⟩
  parent d := some ⟨d.id - 1⟩
  inode d := some (d.id + 1)
  mount _ := some 1
  device _ := some 1

/-- Two entries with names, inside one without: all modes give the names, and the chain ends with an
empty one. -/
theorem resolve_agree_unrooted :
    let written := inlineBuffer.resolve (.still unrooted) (Probe.plain.drawn 0) .empty ⟨2⟩ ⟨3, 1⟩
    let whole := (singleFragment (.new 1)).resolve (.still unrooted) (Probe.plain.drawn 0) .empty
      ⟨2⟩ ⟨3, 1⟩
    let chained := (fragmentStore (.new 76)).resolve (.still unrooted) (Probe.plain.drawn 0) .empty
      ⟨2⟩ ⟨3, 1⟩
    written.paths.filled = [97, 0, 97, 0] ∧
      whole.resolver.wholePaths?.bind (·.peek? 1) = some ⟨[97, 0, 97, 0]⟩ ∧
      ∃ fragments, chained.resolver.fragments? = some fragments ∧
        Follows fragments ⟨3, 1⟩ [[97], [97], []] := by
  intro written whole chained
  have hreads : unrooted.ReadsNames := by
    rintro d size read hread
    obtain rfl := Option.some.inj hread
    exact ⟨rfl, List.length_take_le _ _⟩
  have hnul : unrooted.NulFree := by
    rintro d size read hread
    obtain rfl := Option.some.inj hread
    refine mt List.mem_of_mem_take ?_
    split <;> decide
  have hdistinct : unrooted.DistinctAbove ⟨2⟩ := by
    unfold Accessor.DistinctAbove
    decide
  have hempty : PathBuffer.empty.filled = [] := rfl
  obtain ⟨⟨stored, hstored, -, -, -, hsame⟩, -, hchained⟩ :=
    resolve_agree hreads hnul ⟨2⟩ hempty (.new 1) (Probe.plain.drawn 0) .empty ⟨3, 1⟩
  have hfilled : written.paths.filled = [97, 0, 97, 0] := by
    show (inlineBuffer.resolve _ _ _ _ _).paths.filled = _
    decide
  have hwhole : whole.truncated = false := by
    rw [truncated_singleFragment]
    decide
  have hwritten : written.truncated = false := by
    rw [(resolve_inlineBuffer hempty).2]
    decide
  obtain ⟨-, fragments, hfragments, hfollows⟩ :=
    hchained hwritten hdistinct (.new 76) 1 rfl le_rfl
  refine ⟨hfilled, ?_, fragments, hfragments, ?_⟩
  · rw [← hfilled, ← hsame hwhole]
    exact hstored
  · rw [hfilled] at hfollows
    exact hfollows

end Resolver

end FsTrace
