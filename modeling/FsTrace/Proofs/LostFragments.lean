import FsTrace.Proofs.SecondChance
import FsTrace.Proofs.SharedChains

/-!
# Chains that lost a fragment

A walk ends at the first stored entry that it meets, and only that one counts as used. The entries
above it grow old in the table, and may have to make room while the entry that leads to them stays:
a later walk then ends below the gap and does not close it.

* `Lined`: the stored keys in the order of the sweep, each with whether it was used;
* `FixedTree.hot`: a run after which the parent of an entry that was just resolved is gone, whatever
  the capacity (`FixedTree.not_follows_hot`);
* `FixedTree.follows_iff_not_lost`: the chain of a resolved entry can be followed just when none of
  its fragments was lost, that is, had to make room and was not stored again since.
-/

namespace FsTrace

/-! ### Stored keys in line -/

/-- The stored keys in the order of the sweep, each with whether it was used. -/
structure Lined (s : FragmentStore) (capacity : Nat) (marks : List (Location × Bool)) : Prop where
  valid : s.table.Valid
  capacity_eq : s.table.capacity = capacity
  marks_eq : s.table.items.map (fun item => (item.1, item.2.used)) = marks

namespace Lined

variable {s : FragmentStore} {capacity : Nat} {marks : List (Location × Bool)} {key : Location}

theorem new (h : 0 < capacity) : Lined (.new capacity) capacity [] :=
  ⟨Table.valid_new capacity, max_eq_left h, by rw [FragmentStore.new, Table.items_new]; rfl⟩

theorem of_table {s' : FragmentStore} (h : Lined s capacity marks) (htable : s'.table = s.table) :
    Lined s' capacity marks :=
  ⟨htable ▸ h.valid, htable ▸ h.capacity_eq, htable ▸ h.marks_eq⟩

theorem peek?_eq_none_iff (h : Lined s capacity marks) :
    s.table.peek? key = none ↔ ∀ mark ∈ marks, mark.1 ≠ key := by
  rw [Table.peek?_eq_none_iff h.valid, ← h.marks_eq, List.forall_mem_map]

theorem endsAt_of_absent (h : Lined s capacity marks) (habsent : ∀ mark ∈ marks, mark.1 ≠ key) :
    s.endsAt key = false := FragmentStore.endsAt_of_absent (h.peek?_eq_none_iff.2 habsent)

/-- A look counts as a use. -/
theorem look (h : Lined s capacity marks) (key : Location) :
    Lined (s.look key) capacity
      (marks.map fun mark => if mark.1 == key then (mark.1, true) else mark) := by
  refine ⟨Table.valid_get h.valid key, (Table.capacity_get _ _).trans h.capacity_eq, ?_⟩
  rw [FragmentStore.look, Table.items_get, ← h.marks_eq, List.map_map, List.map_map]
  refine List.map_congr_left fun item _ => ?_
  simp only [Function.comp_apply]
  split <;> rfl

theorem look_of_absent (h : Lined s capacity marks) (habsent : ∀ mark ∈ marks, mark.1 ≠ key) :
    Lined (s.look key) capacity marks := by
  have hsame : (marks.map fun mark => if mark.1 == key then (mark.1, true) else mark) = marks := by
    rw [List.map_congr_left (g := id) fun mark hmark => by simp [habsent mark hmark], List.map_id]
  exact hsame ▸ h.look key

theorem put_of_room (h : Lined s capacity marks) (habsent : ∀ mark ∈ marks, mark.1 ≠ key)
    (hroom : marks.length < capacity) (fragment : Fragment) :
    Lined (s.put key fragment) capacity (marks ++ [(key, false)]) := by
  have hlength : s.table.items.length < s.table.capacity := by
    rw [h.capacity_eq, ← List.length_map, h.marks_eq]
    exact hroom
  refine ⟨Table.valid_insert h.valid key fragment,
    (Table.capacity_insert _ _ _).trans h.capacity_eq, ?_⟩
  rw [FragmentStore.put, Table.items_insert_of_absent h.valid (h.peek?_eq_none_iff.2 habsent),
    Table.makeRoom_of_room h.valid hlength, List.map_append, h.marks_eq]
  rfl

/-- In a full table, a used key at the front stays, and the unused one after it makes room. -/
theorem put_of_full {hot gone : Location}
    (h : Lined s capacity ((hot, true) :: (gone, false) :: marks))
    (habsent : ∀ mark ∈ (hot, true) :: (gone, false) :: marks, mark.1 ≠ key)
    (hfull : capacity ≤ marks.length + 2) (fragment : Fragment) :
    Lined (s.put key fragment) capacity (marks ++ [(hot, false), (key, false)]) := by
  have hlength : s.table.capacity ≤ s.table.items.length := by
    rw [h.capacity_eq, ← List.length_map, h.marks_eq]
    exact hfull
  obtain ⟨⟨k, value, admission, used⟩, rest, hitems, hfront, hrest⟩ :=
    List.map_eq_cons_iff.1 h.marks_eq
  obtain ⟨⟨k', value', admission', used'⟩, rest', rfl, hsecond, hmarks⟩ :=
    List.map_eq_cons_iff.1 hrest
  obtain ⟨rfl, rfl⟩ := Prod.mk.inj hfront
  obtain ⟨rfl, rfl⟩ := Prod.mk.inj hsecond
  have hswept : s.table.makeRoom.2.items = rest' ++ [(k, ⟨value, admission, false⟩)] := by
    have hsweep := Table.makeRoom_of_full h.valid hlength
    rw [hitems] at hsweep
    exact congrArg Prod.snd hsweep
  refine ⟨Table.valid_insert h.valid key fragment,
    (Table.capacity_insert _ _ _).trans h.capacity_eq, ?_⟩
  rw [FragmentStore.put, Table.items_insert_of_absent h.valid (h.peek?_eq_none_iff.2 habsent),
    hswept, List.map_append, List.map_append, hmarks, List.append_assoc]
  rfl

end Lined

namespace FixedTree

variable {T : FixedTree} {mount : MountId} {s s' : FragmentStore} {d : Handle}
  {keys : List Location}

/-! ### An entry that stays in use -/

theorem Walk.table_of_stored (h : T.Walk mount s d s' keys)
    (hends : s.endsAt (T.locate mount d) = true) :
    s'.table = (s.look (T.locate mount d)).table := by
  cases h with
  | stored _ => rfl
  | root hgoes _ => exact absurd hends (by simp [hgoes])
  | step hgoes _ _ => exact absurd hends (by simp [hgoes])

theorem Walk.eq_of_boundary (h : T.Walk mount s d s' keys)
    (hgoes : s.endsAt (T.locate mount d) = false) (hd : T.IsBoundary d) :
    s' = T.store mount s d := by
  cases h with
  | stored hends => exact absurd hends (by simp [hgoes])
  | root _ _ => rfl
  | step _ hboundary _ => exact absurd hd hboundary

theorem Walk.exists_parent (h : T.Walk mount s d s' keys)
    (hgoes : s.endsAt (T.locate mount d) = false) (hd : ¬ T.IsBoundary d) :
    ∃ keys', T.Walk mount (T.store mount s d) (T.parent d) s' keys' := by
  cases h with
  | stored hends => exact absurd hends (by simp [hgoes])
  | root _ hboundary => exact absurd hboundary hd
  | step _ _ habove => exact ⟨_, habove⟩

theorem resolveAll_concat (s : FragmentStore) (leaves : List Leaf) (leaf : Leaf) :
    (T.resolveAll s (leaves ++ [leaf])).2 = (T.resolve (T.resolveAll s leaves).2 leaf).2 := by
  induction leaves generalizing s with
  | nil => rfl
  | cons first leaves ih => exact ih _

/-- The tree in which `0` is the parent of `1`, and all other numbers are roots. -/
def flat : FixedTree := numbered (fun n => if n = 1 then 0 else n) fun n => by
  split <;> omega

theorem isBoundary_flat_iff {n : Nat} : flat.IsBoundary ⟨n⟩ ↔ n ≠ 1 := by
  have hnumbered : flat.IsBoundary ⟨n⟩ ↔ (if n = 1 then 0 else n) = n :=
    Listing.isBoundary_numbered_iff
  rw [hnumbered]
  split <;> omega

theorem leads_flat : flat.Leads ⟨1⟩ [⟨1⟩, ⟨0⟩] :=
  .step (fun hb => isBoundary_flat_iff.1 hb rfl) (.boundary (isBoundary_flat_iff.2 (by decide)))

theorem shallow_flat : flat.Shallow := by
  rintro ⟨n⟩ - chain hchain
  by_cases hn : n = 1
  · subst hn
    rw [hchain.unique leads_flat]
    decide
  · obtain rfl := hchain.unique (.boundary (isBoundary_flat_iff.2 hn))
    exact (by decide : 1 ≤ maxPathDepth)

/-- Roots from `2` on. -/
def roots (count : Nat) : List Leaf := (List.range count).map fun i => ⟨1, ⟨i + 2⟩⟩

/-- Resolves `1` twice, so that it is in use, and then one root more than fit into a table of the
given capacity. -/
def hot (capacity : Nat) : List Leaf := ⟨1, ⟨1⟩⟩ :: ⟨1, ⟨1⟩⟩ :: roots (capacity - 1)

/-- The line after some roots followed `1` and its parent. -/
def hotLine (count : Nat) : List (Location × Bool) :=
  (⟨2, 1⟩, true) :: (⟨1, 1⟩, false) :: (List.range count).map fun i => (⟨i + 3, 1⟩, false)

variable {capacity : Nat} {marks : List (Location × Bool)} {n : Nat}

theorem walk_flat (s : FragmentStore) (leaf : Leaf) :
    flat.Walk leaf.mount s leaf.entry (flat.resolve s leaf).2
      ((flat.walkPuts s leaf).map (·.key)) := by
  have hfinishes : flat.Finishes s [leaf] :=
    finishes_of_shallow shallow_flat fun leaf _ => Set.mem_univ leaf.entry
  exact walk_of_resolve (Set.mem_univ leaf.entry) (finishes_cons.1 hfinishes).1

theorem faithful_flat (capacity : Nat) (leaves : List Leaf) :
    flat.Faithful (flat.resolveAll (.new capacity) leaves).2 := by
  have hleaves : ∀ leaf ∈ leaves, leaf.entry ∈ flat.entries :=
    fun leaf _ => Set.mem_univ leaf.entry
  exact faithful_resolveAll hleaves (finishes_of_shallow shallow_flat hleaves)
    (faithful_new capacity)

theorem endsAt_of_stored (hs : T.Faithful s) (hd : d ∈ T.entries)
    (hboundary : ¬ T.IsBoundary d) (hstored : (s.table.peek? (T.locate mount d)).isSome) :
    s.endsAt (T.locate mount d) = true := by
  obtain ⟨f, hf⟩ := Option.isSome_iff_exists.1 hstored
  obtain ⟨mount', d', hd', hlocate, rfl⟩ := hs _ f hf
  obtain ⟨rfl, rfl⟩ := (locate_inj hd hd').1 hlocate
  have hparent : (T.parentLocation mount d).isNowhere = false :=
    eq_false_of_ne_true (mt (isNowhere_parentLocation hd).1 hboundary)
  simp [FragmentStore.endsAt, hf, Fragment.isDetached, hparent]

/-- A stored entry is looked at, and that is all. -/
theorem resolve_flat_hot (hs : flat.Faithful s)
    (hstored : (s.table.peek? ⟨2, 1⟩).isSome) :
    (flat.resolve s ⟨1, ⟨1⟩⟩).2.table = (s.look ⟨2, 1⟩).table :=
  (walk_flat s ⟨1, ⟨1⟩⟩).table_of_stored (endsAt_of_stored hs (Set.mem_univ _)
    (fun hb => isBoundary_flat_iff.1 hb rfl) hstored)

theorem resolve_flat_root (h : Lined s capacity marks)
    (habsent : ∀ mark ∈ marks, mark.1 ≠ ⟨n + 1, 1⟩) (hn : n ≠ 1) :
    (flat.resolve s ⟨1, ⟨n⟩⟩).2 = flat.store 1 s ⟨n⟩ :=
  (walk_flat s ⟨1, ⟨n⟩⟩).eq_of_boundary (h.endsAt_of_absent habsent) (isBoundary_flat_iff.2 hn)

theorem location_ne {a b : Nat} (h : a ≠ b) (mount : MountId) :
    (⟨a, mount⟩ : Location) ≠ ⟨b, mount⟩ :=
  fun hlocation => h (congrArg Location.inode hlocation)

theorem not_mem_hotLine {count inode : Nat} (h : count + 2 < inode) :
    ∀ mark ∈ hotLine count, mark.1 ≠ ⟨inode, 1⟩ := by
  intro mark hmark
  simp only [hotLine, List.mem_cons, List.mem_map, List.mem_range] at hmark
  rcases hmark with rfl | rfl | ⟨i, hi, rfl⟩
  · exact location_ne (by omega) _
  · exact location_ne (by omega) _
  · exact location_ne (by omega) _

/-- After `1` was resolved twice, it and its parent are in line, and only it is in use. -/
theorem lined_start (h : 2 ≤ capacity) :
    Lined (flat.resolveAll (.new capacity) [⟨1, ⟨1⟩⟩, ⟨1, ⟨1⟩⟩]).2 capacity (hotLine 0) := by
  have hnew : Lined (.new capacity) capacity [] := .new (by omega)
  have hnone : ∀ key : Location, ∀ mark ∈ ([] : List (Location × Bool)), mark.1 ≠ key :=
    fun _ _ hmark => absurd hmark List.not_mem_nil
  have hleaf : Lined (flat.store 1 (.new capacity) ⟨1⟩) capacity [(⟨2, 1⟩, false)] :=
    (hnew.look_of_absent (hnone _)).put_of_room (hnone _) (by simp; omega) _
  have habsent : ∀ mark ∈ [((⟨2, 1⟩ : Location), false)], mark.1 ≠ ⟨1, 1⟩ := by
    simp
  have hboth : Lined (flat.store 1 (flat.store 1 (.new capacity) ⟨1⟩) ⟨0⟩) capacity
      [(⟨2, 1⟩, false), (⟨1, 1⟩, false)] :=
    (hleaf.look_of_absent habsent).put_of_room habsent (by simp; omega) _
  have hfirst : (flat.resolve (.new capacity) ⟨1, ⟨1⟩⟩).2 =
      flat.store 1 (flat.store 1 (.new capacity) ⟨1⟩) ⟨0⟩ := by
    obtain ⟨_, habove⟩ := (walk_flat (.new capacity) ⟨1, ⟨1⟩⟩).exists_parent
      (hnew.endsAt_of_absent (hnone _)) fun hb => isBoundary_flat_iff.1 hb rfl
    exact habove.eq_of_boundary (hleaf.endsAt_of_absent habsent)
      (isBoundary_flat_iff.2 (by decide))
  have hstored : ((flat.resolve (.new capacity) ⟨1, ⟨1⟩⟩).2.table.peek? ⟨2, 1⟩).isSome := by
    rw [hfirst, Option.isSome_iff_ne_none, Ne, hboth.peek?_eq_none_iff]
    simp
  have hline : Lined (flat.resolve (.new capacity) ⟨1, ⟨1⟩⟩).2 capacity
      [(⟨2, 1⟩, false), (⟨1, 1⟩, false)] := hfirst ▸ hboth
  exact (hline.look ⟨2, 1⟩).of_table
    (resolve_flat_hot (faithful_flat capacity [⟨1, ⟨1⟩⟩]) hstored)

/-- While there is room, roots join the line. -/
theorem lined_roots {count : Nat} (h : count + 2 ≤ capacity) :
    Lined (flat.resolveAll (.new capacity) (⟨1, ⟨1⟩⟩ :: ⟨1, ⟨1⟩⟩ :: roots count)).2 capacity
      (hotLine count) := by
  induction count with
  | zero => exact lined_start h
  | succ count ih =>
    have hline := ih (by omega)
    have habsent := not_mem_hotLine (show count + 2 < count + 3 by omega)
    have hlast : (flat.resolveAll (.new capacity) (⟨1, ⟨1⟩⟩ :: ⟨1, ⟨1⟩⟩ :: roots (count + 1))).2 =
        flat.store 1 (flat.resolveAll (.new capacity) (⟨1, ⟨1⟩⟩ :: ⟨1, ⟨1⟩⟩ :: roots count)).2
          ⟨count + 2⟩ := by
      rw [roots, List.range_succ, List.map_append, List.map_singleton, ← List.cons_append,
        ← List.cons_append, resolveAll_concat]
      exact resolve_flat_root hline habsent (by omega)
    have hmarks : hotLine (count + 1) = hotLine count ++ [(⟨count + 3, 1⟩, false)] := by
      simp [hotLine, List.range_succ]
    rw [hlast, hmarks]
    exact (hline.look_of_absent habsent).put_of_room habsent (by simp [hotLine]; omega) _

/-- The last root takes the place of the parent of `1`. -/
theorem lined_hot (h : 2 ≤ capacity) :
    Lined (flat.resolveAll (.new capacity) (hot capacity)).2 capacity
      ((List.range (capacity - 2)).map (fun i => (⟨i + 3, 1⟩, false)) ++
        [(⟨2, 1⟩, false), (⟨capacity + 1, 1⟩, false)]) := by
  obtain ⟨count, rfl⟩ : ∃ count, capacity = count + 2 := ⟨capacity - 2, by omega⟩
  have hline := lined_roots (show count + 2 ≤ count + 2 from le_rfl)
  have habsent := not_mem_hotLine (show count + 2 < count + 3 by omega)
  have hlast : (flat.resolveAll (.new (count + 2)) (hot (count + 2))).2 =
      flat.store 1 (flat.resolveAll (.new (count + 2)) (⟨1, ⟨1⟩⟩ :: ⟨1, ⟨1⟩⟩ :: roots count)).2
        ⟨count + 2⟩ := by
    rw [hot, show count + 2 - 1 = count + 1 from rfl, roots, List.range_succ, List.map_append,
      List.map_singleton, ← List.cons_append, ← List.cons_append, resolveAll_concat]
    exact resolve_flat_root hline habsent (by omega)
  rw [hlast]
  exact (hline.look_of_absent habsent).put_of_full habsent (by simp) _

/-- Whatever the capacity, the parent of an entry in use is gone. -/
theorem not_follows_hot (h : 2 ≤ capacity) :
    ¬ ∃ names, Follows (flat.resolveAll (.new capacity) (hot capacity ++ [⟨1, ⟨1⟩⟩])).2.table
      (flat.locate 1 ⟨1⟩) names := by
  have hline := lined_hot h
  have hstored : ((flat.resolveAll (.new capacity) (hot capacity)).2.table.peek?
      ⟨2, 1⟩).isSome := by
    rw [Option.isSome_iff_ne_none, Ne, hline.peek?_eq_none_iff]
    simp
  have hgone : (flat.resolveAll (.new capacity) (hot capacity)).2.table.peek? ⟨1, 1⟩ = none := by
    rw [hline.peek?_eq_none_iff]
    intro mark hmark
    simp only [List.mem_append, List.mem_map, List.mem_cons, List.not_mem_nil, or_false] at hmark
    rcases hmark with ⟨i, -, rfl⟩ | rfl | rfl
    · exact location_ne (by omega) _
    · exact location_ne (by omega) _
    · exact location_ne (by omega) _
  have hlast : (flat.resolveAll (.new capacity) (hot capacity ++ [⟨1, ⟨1⟩⟩])).2.table =
      ((flat.resolveAll (.new capacity) (hot capacity)).2.look ⟨2, 1⟩).table := by
    rw [resolveAll_concat]
    exact resolve_flat_hot (faithful_flat capacity _) hstored
  rintro ⟨names, hnames⟩
  rw [follows_iff (faithful_flat capacity _) leads_flat (Set.mem_univ _), hlast] at hnames
  have hparent := hnames.1 ⟨0⟩ (by simp)
  rw [FragmentStore.peek?_look] at hparent
  exact absurd hparent (by rw [Option.not_isSome_iff_eq_none]; exact hgone)

/-! ### When chains stay whole -/

variable {leaves : List Leaf} {leaf : Leaf}

/-- **When chains stay whole.** Whatever entries were resolved from an empty store, and however many
fragments had to make room: an entry on the chain of a resolved one is stored unless its fragment
was lost, and the chain can be followed to a fragment without parent just when none on it was. -/
theorem follows_iff_not_lost (capacity : Nat) (hT : T.Shallow)
    (hleaves : ∀ leaf ∈ leaves, leaf.entry ∈ T.entries) (hleaf : leaf ∈ leaves) :
    (∀ e, T.Reaches leaf.entry e →
      (((T.resolveAll (.new capacity) leaves).2.table.peek? (T.locate leaf.mount e)).isSome ↔
        ¬ FragmentStore.Lost (T.locate leaf.mount e) (T.puts (.new capacity) leaves))) ∧
    ((∃ names, Follows (T.resolveAll (.new capacity) leaves).2.table
        (T.locate leaf.mount leaf.entry) names) ↔
      ∀ e, T.Reaches leaf.entry e →
        ¬ FragmentStore.Lost (T.locate leaf.mount e) (T.puts (.new capacity) leaves)) := by
  have hfinishes : T.Finishes (.new capacity) leaves := finishes_of_shallow hT hleaves
  have hstored : ∀ e, T.Reaches leaf.entry e →
      (((T.resolveAll (.new capacity) leaves).2.table.peek? (T.locate leaf.mount e)).isSome ↔
        ¬ FragmentStore.Lost (T.locate leaf.mount e) (T.puts (.new capacity) leaves)) := by
    intro e he
    rw [isSome_resolveAll_new_iff hleaves hfinishes]
    exact and_iff_right ⟨leaf, hleaf, e, he, rfl⟩
  refine ⟨hstored, ?_⟩
  obtain ⟨chain, hchain⟩ := T.leads leaf.entry (hleaves leaf hleaf)
  have hfaithful := faithful_resolveAll hleaves hfinishes (faithful_new (T := T) capacity)
  simp only [follows_iff hfaithful hchain (hleaves leaf hleaf), exists_and_left, exists_eq,
    and_true, hchain.reaches_iff]
  exact forall₂_congr fun e he => hstored e (hchain.reaches_iff.2 he)

/-- With room for both walks, the chain of `1` can be followed after it was resolved twice. -/
theorem follows_flat :
    ∃ names, Follows (flat.resolveAll (.new 152) [⟨1, ⟨1⟩⟩, ⟨1, ⟨1⟩⟩]).2.table
      (flat.locate 1 ⟨1⟩) names := by
  have hentries : ∀ leaf ∈ [(⟨1, ⟨1⟩⟩ : Leaf), ⟨1, ⟨1⟩⟩], leaf.entry ∈ flat.entries :=
    fun leaf _ => Set.mem_univ leaf.entry
  have hkept : (flat.resolveAll (.new 152) [⟨1, ⟨1⟩⟩, ⟨1, ⟨1⟩⟩]).2.table.evictions = 0 :=
    evictions_resolveAll_eq_zero hentries (by decide)
  have hleaf : (⟨1, ⟨1⟩⟩ : Leaf) ∈ [(⟨1, ⟨1⟩⟩ : Leaf), ⟨1, ⟨1⟩⟩] := List.mem_cons_self
  obtain ⟨-, hwhole⟩ := follows_iff_not_lost 152 shallow_flat hentries hleaf
  exact hwhole.2 fun e _ => not_lost_of_evictions_eq_zero hentries hkept _

/-- Room for the longest walk and its mark does not keep chains whole. -/
theorem lost_parent_of_hot :
    ¬ ∀ (T : FixedTree) (capacity : Nat) (leaves : List Leaf) (leaf : Leaf),
      T.Shallow → maxPathDepth + 1 ≤ capacity →
      (∀ leaf ∈ leaves, leaf.entry ∈ T.entries) → leaf.entry ∈ T.entries →
        ∃ names, Follows (T.resolveAll (.new capacity) (leaves ++ [leaf])).2.table
          (T.locate leaf.mount leaf.entry) names := by
  intro hwhole
  have hroom : 2 ≤ maxPathDepth + 1 := by decide
  exact not_follows_hot hroom (hwhole flat (maxPathDepth + 1) (hot (maxPathDepth + 1)) ⟨1, ⟨1⟩⟩
    shallow_flat le_rfl (fun leaf _ => Set.mem_univ leaf.entry) (Set.mem_univ _))

end FixedTree

end FsTrace
