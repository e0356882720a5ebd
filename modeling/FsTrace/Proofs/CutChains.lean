import FsTrace.Proofs.LinkedChains
import FsTrace.Proofs.StoredChains

/-!
# Chains that were cut

A walk that runs out of depth leaves a cut mark in place of the next entry. A later walk from an
entry below the mark ends at once, since that entry is stored, and does not report that a part of
its path is missing. The mark stays until a walk comes to the very entry that it stands for.

* `FixedTree.written`: what a run writes, and `FixedTree.Cut`: a cut mark was the last that was
  written in place of an entry;
* `FixedTree.follows_iff_not_cut`: without evictions, the chain of a resolved entry is whole just
  when no entry on it was cut;
* `FixedTree.cut_of_deeper`: an entry that is not too deep, and whose walk reports nothing, with a
  chain that was cut.
-/

namespace FsTrace

namespace FixedTree

variable {T : FixedTree} {mount : MountId} {s : FragmentStore} {d e : Handle}
  {chain : List Handle} {leaf : Leaf} {leaves : List Leaf} {capacity : Nat} {k : Location}

/-! ### Runs without evictions -/

/-- The fragments that a run writes, in order, each with its key. -/
def written (T : FixedTree) (s : FragmentStore) : List Leaf → List (Location × Fragment)
  | [] => []
  | leaf :: leaves =>
    FragmentStore.written leaf.mount s (T.locate leaf.mount leaf.entry)
      (ascent (.still T.accessor) leaf.entry) ++ written T (T.resolve s leaf).2 leaves

theorem evictions_le_resolveAll (s : FragmentStore) (leaves : List Leaf) :
    s.table.evictions ≤ (T.resolveAll s leaves).2.table.evictions := by
  induction leaves generalizing s with
  | nil => exact le_rfl
  | cons leaf leaves ih => exact FragmentStore.evictions_le_resolve.trans (ih _)

/-- In a run that evicts nothing, neither its first walk nor the rest does. -/
theorem kept_cons
    (hkept : (T.resolveAll s (leaf :: leaves)).2.table.evictions ≤ s.table.evictions) :
    (T.resolve s leaf).2.table.evictions ≤ s.table.evictions ∧
      (T.resolveAll (T.resolve s leaf).2 leaves).2.table.evictions ≤
        (T.resolve s leaf).2.table.evictions :=
  ⟨(evictions_le_resolveAll _ leaves).trans hkept,
    hkept.trans FragmentStore.evictions_le_resolve⟩

/-- What is stored after a run that evicts nothing. -/
theorem peek?_resolveAll (hleaves : ∀ leaf ∈ leaves, leaf.entry ∈ T.entries)
    (hkept : (T.resolveAll s leaves).2.table.evictions ≤ s.table.evictions) :
    (T.resolveAll s leaves).2.table.peek? k =
      FragmentStore.leave k (s.table.peek? k) (T.written s leaves) := by
  induction leaves generalizing s with
  | nil => rfl
  | cons leaf leaves ih =>
    obtain ⟨hleaf, hleaves⟩ := List.forall_mem_cons.1 hleaves
    obtain ⟨hfirst, hrest⟩ := kept_cons hkept
    have hwalk : (T.resolve s leaf).2.table.peek? k =
        FragmentStore.leave k (s.table.peek? k) (FragmentStore.written leaf.mount s
          (T.locate leaf.mount leaf.entry) (ascent (.still T.accessor) leaf.entry)) := by
      rw [resolve_eq hleaf] at hfirst ⊢
      exact FragmentStore.peek?_storeLevels hfirst
    rw [written, FragmentStore.leave_append, ← hwalk]
    exact ih hleaves hrest

theorem linked_resolve (hleaf : leaf.entry ∈ T.entries)
    (hkept : (T.resolve s leaf).2.table.evictions ≤ s.table.evictions) (hs : T.Linked s none) :
    T.Linked (T.resolve s leaf).2 none ∧
      ((T.resolve s leaf).2.table.peek? (T.locate leaf.mount leaf.entry)).isSome := by
  obtain ⟨chain, hchain⟩ := T.leads leaf.entry hleaf
  rw [resolve_eq hleaf, ascent_eq hchain hleaf] at hkept ⊢
  exact linked_storeLevels hchain hleaf _ hkept hs.mono

/-- A run that evicts nothing links what it stores, and stores what it resolves. -/
theorem linked_resolveAll (hleaves : ∀ leaf ∈ leaves, leaf.entry ∈ T.entries)
    (hkept : (T.resolveAll s leaves).2.table.evictions ≤ s.table.evictions)
    (hs : T.Linked s none) :
    T.Linked (T.resolveAll s leaves).2 none ∧ ∀ leaf ∈ leaves,
      ((T.resolveAll s leaves).2.table.peek? (T.locate leaf.mount leaf.entry)).isSome := by
  induction leaves generalizing s with
  | nil => exact ⟨hs, fun _ hnone => absurd hnone List.not_mem_nil⟩
  | cons leaf leaves ih =>
    obtain ⟨hleaf, hleaves⟩ := List.forall_mem_cons.1 hleaves
    obtain ⟨hfirst, hrest⟩ := kept_cons hkept
    obtain ⟨hlinked, hstored⟩ := linked_resolve hleaf hfirst hs
    obtain ⟨hlinked', hstored'⟩ := ih hleaves hrest hlinked
    refine ⟨hlinked', List.forall_mem_cons.2 ⟨?_, hstored'⟩⟩
    show ((T.resolveAll (T.resolve s leaf).2 leaves).2.table.peek? _).isSome
    rw [peek?_resolveAll hleaves hrest]
    exact FragmentStore.isSome_leave hstored

/-! ### Cut entries -/

/-- What was written last in place of an entry is a cut mark. An entry without parent and name is
stored as just that, so that a mark cuts nothing off there. -/
def Cut (T : FixedTree) (s : FragmentStore) (leaves : List Leaf) (mount : MountId) (e : Handle) :
    Prop :=
  (T.fragment mount e).isDetached = false ∧
    ∃ before after, T.written s leaves = before ++ (T.locate mount e, .detached) :: after ∧
      ∀ w ∈ after, w.1 ≠ T.locate mount e

theorem marked_iff_cut (hleaves : ∀ leaf ∈ leaves, leaf.entry ∈ T.entries)
    (hkept : (T.resolveAll (.new capacity) leaves).2.table.evictions = 0) :
    T.Marked (T.resolveAll (.new capacity) leaves).2 mount e ↔
      T.Cut (.new capacity) leaves mount e := by
  have hempty : (FragmentStore.new capacity).table.peek? (T.locate mount e) = none :=
    Table.peek?_new _ _
  rw [Marked, Cut, peek?_resolveAll hleaves hkept.le, hempty, FragmentStore.leave_eq_some_iff]
  simp [and_comm]

/-- An entry is cut only by a walk on its chain that ran out of depth. -/
theorem exists_truncated_of_mem (hleaves : ∀ leaf ∈ leaves, leaf.entry ∈ T.entries)
    (he : (T.fragment mount e).isDetached = false) (heT : e ∈ T.entries)
    (hmem : (T.locate mount e, .detached) ∈ T.written s leaves) :
    ∃ before leaf after, leaves = before ++ leaf :: after ∧ leaf.mount = mount ∧
      T.Reaches leaf.entry e ∧ (T.resolve (T.resolveAll s before).2 leaf).1 = true := by
  induction leaves generalizing s with
  | nil => cases hmem
  | cons leaf leaves ih =>
    obtain ⟨hleaf, hleaves⟩ := List.forall_mem_cons.1 hleaves
    rcases List.mem_append.1 hmem with hmem | hmem
    · obtain ⟨chain, hchain⟩ := T.leads leaf.entry hleaf
      rw [ascent_eq hchain hleaf] at hmem
      obtain ⟨e', he', hkey, hf⟩ := mem_written hchain hleaf _ hmem
      obtain ⟨rfl, rfl⟩ := (locate_inj heT (mem_of_reaches hleaf he')).1 hkey
      have htruncated := (hf.resolve_left fun hown => by simp [← hown] at he).2
      rw [← ascent_eq hchain hleaf, ← resolve_eq hleaf] at htruncated
      exact ⟨[], leaf, leaves, rfl, rfl, he', htruncated⟩
    · obtain ⟨before, leaf', after, rfl, hrest⟩ := ih hleaves hmem
      exact ⟨leaf :: before, leaf', after, rfl, hrest⟩

theorem length_names (below : List Handle) (mount : MountId) :
    ((below.map fun e => (T.fragment mount e).name) ++ [[]]).length = below.length + 1 := by
  simp

/-- A chain with a marked entry cannot be followed to its end. -/
theorem not_follows_of_marked (hs : T.Linked s none) (h : T.Leads d chain) (hd : d ∈ T.entries)
    (hstored : (s.table.peek? (T.locate mount d)).isSome) (he : e ∈ chain)
    (hmarked : T.Marked s mount e) :
    ¬ Follows s.table (T.locate mount d) (chain.map fun e => (T.fragment mount e).name) := by
  classical
  intro hfollows
  -- the first marked entry ends the links
  obtain ⟨below, first, above, rfl, hbelow, hfirst⟩ : ∃ below first above,
      chain = below ++ first :: above ∧ (∀ b ∈ below, ¬ T.Marked s mount b) ∧
        T.Marked s mount first := by
    obtain ⟨first, hfind⟩ := Option.isSome_iff_exists.1
      (List.find?_isSome (p := fun e => decide (T.Marked s mount e)).2 ⟨e, he, by simpa⟩)
    obtain ⟨hfirst, below, above, rfl, hbelow⟩ := List.find?_eq_some_iff_append.1 hfind
    exact ⟨below, first, above, rfl, fun b hb => by simpa using hbelow b hb, by simpa using hfirst⟩
  have hnames := hfollows.unique (follows_marked hs h hd hstored hbelow hfirst)
  have hlength := congrArg List.length hnames
  rw [length_names, List.length_map, List.length_append, List.length_cons] at hlength
  obtain rfl : above = [] := List.length_eq_zero_iff.1 (by omega)
  -- the marked entry would be a boundary, and one without name
  rw [List.map_append, List.append_cancel_left_eq] at hnames
  have hname : (T.fragment mount first).name = [] := (List.cons.inj hnames).1
  have hboundary : T.IsBoundary first := isBoundary_last h
  have hparent : (T.fragment mount first).parent = .nowhere := if_pos hboundary
  exact absurd ((Fragment.isDetached_iff hparent).2 hname) (by simp [hfirst.2])

/-- **When chains are whole.** Entries of a tree that stays as it is are resolved one after another
from an empty store, and nothing is evicted. The chain of a resolved entry can be followed to its
boundary, and then gives all its names, just when no entry on it was cut. Otherwise following it
ends below the boundary, at the first entry that was cut, with an empty name. An entry is cut only
by a walk on its chain that ran out of depth. -/
theorem follows_iff_not_cut (capacity : Nat)
    (hleaves : ∀ leaf ∈ leaves, leaf.entry ∈ T.entries)
    (hkept : (T.resolveAll (.new capacity) leaves).2.table.evictions = 0)
    (hleaf : leaf ∈ leaves) (hchain : T.Leads leaf.entry chain) :
    (Follows (T.resolveAll (.new capacity) leaves).2.table (T.locate leaf.mount leaf.entry)
        (chain.map fun e => (T.fragment leaf.mount e).name) ↔
      ∀ e ∈ chain, ¬ T.Cut (.new capacity) leaves leaf.mount e) ∧
    (∀ below e above, chain = below ++ e :: above →
      (∀ b ∈ below, ¬ T.Cut (.new capacity) leaves leaf.mount b) →
      T.Cut (.new capacity) leaves leaf.mount e →
      Follows (T.resolveAll (.new capacity) leaves).2.table (T.locate leaf.mount leaf.entry)
        ((below.map fun e => (T.fragment leaf.mount e).name) ++ [[]])) ∧
    (∀ e ∈ chain, T.Cut (.new capacity) leaves leaf.mount e →
      ∃ before leaf' after, leaves = before ++ leaf' :: after ∧ leaf'.mount = leaf.mount ∧
        T.Reaches leaf'.entry e ∧
        (T.resolve (T.resolveAll (.new capacity) before).2 leaf').1 = true) := by
  have hd := hleaves leaf hleaf
  obtain ⟨hlinked, hstored⟩ := linked_resolveAll hleaves hkept.le (linked_new capacity)
  have hcut : ∀ e, T.Marked (T.resolveAll (.new capacity) leaves).2 leaf.mount e ↔
      T.Cut (.new capacity) leaves leaf.mount e := fun e => marked_iff_cut hleaves hkept
  refine ⟨⟨fun hfollows e he hmark => ?_, fun hwhole => ?_⟩, ?_, ?_⟩
  · exact not_follows_of_marked hlinked hchain hd (hstored leaf hleaf) he ((hcut e).2 hmark)
      hfollows
  · exact follows_chain hlinked hchain hd (hstored leaf hleaf)
      fun e he hmark => hwhole e he ((hcut e).1 hmark)
  · rintro below e above rfl hbelow hmark
    exact follows_marked hlinked hchain hd (hstored leaf hleaf)
      (fun b hb hmark => hbelow b hb ((hcut b).1 hmark)) ((hcut e).2 hmark)
  · rintro e he ⟨hnamed, before, after, hsplit, -⟩
    exact exists_truncated_of_mem hleaves hnamed (mem_of_leads hd hchain he) (by simp [hsplit])

/-! ### An entry below a mark -/

/-- A walk on a chain of which nothing is stored writes every entry that the depth allows, and a
mark in place of the next one. -/
theorem written_of_absent (h : T.Leads d chain) (hd : d ∈ T.entries) (depth : Nat)
    (habsent : ∀ e ∈ chain, s.table.peek? (T.locate mount e) = none) :
    FragmentStore.written mount s (T.locate mount d) ((chain.take depth).map T.level) =
      (chain.take depth).map (fun e => (T.locate mount e, T.fragment mount e)) ++
        ((chain.drop depth).take 1).map fun e => (T.locate mount e, .detached) := by
  induction depth generalizing s d chain with
  | zero =>
    obtain ⟨above, rfl⟩ : ∃ above, chain = d :: above := by cases h <;> exact ⟨_, rfl⟩
    have hnone := habsent d List.mem_cons_self
    simp [FragmentStore.written, hnone]
  | succ depth ih =>
    have hends : s.endsAt (T.locate mount d) = false :=
      FragmentStore.endsAt_of_absent (habsent d h.head_mem)
    cases h with
    | boundary hboundary =>
      simp only [List.take_succ_cons, List.take_nil, List.map_cons, List.map_nil,
        List.drop_succ_cons, List.drop_nil, List.append_nil]
      rw [written_boundary hd hboundary hends]
    | @step _ above hboundary habove =>
      obtain ⟨-, hrest⟩ := List.forall_mem_cons.1 habsent
      have hnone : ∀ e ∈ above, (T.store mount s d).table.peek? (T.locate mount e) = none := by
        intro e he
        rw [← Option.not_isSome_iff_eq_none, FixedTree.store, FragmentStore.isSome_put_iff,
          FragmentStore.peek?_look, hrest e he]
        have hmem := mem_of_leads (T.parent_mem d hd hboundary) habove he
        rintro (hkey | ⟨hnone, -⟩)
        · obtain ⟨-, rfl⟩ := (locate_inj hd hmem).1 hkey
          exact Listing.not_reaches_parent hboundary ⟨_, habove, he⟩
        · cases hnone
      simp only [List.take_succ_cons, List.map_cons, List.drop_succ_cons, List.cons_append]
      rw [written_step hd hboundary hends, ih habove (T.parent_mem d hd hboundary) hnone]

/-- The chain of a number in the ladder. -/
def rungs : Nat → List Handle
  | 0 => [⟨0⟩]
  | n + 1 => ⟨n + 1⟩ :: rungs n

theorem leads_rungs (n : Nat) : ladder.Leads ⟨n⟩ (rungs n) := by
  induction n with
  | zero => exact .boundary (isBoundary_ladder_iff.2 rfl)
  | succ n ih => exact .step (fun hb => absurd (isBoundary_ladder_iff.1 hb) (by omega)) ih

theorem drop_rungs (n k : Nat) : (rungs (n + k)).drop k = rungs n := by
  induction k with
  | zero => rfl
  | succ k ih => exact ih

theorem id_le_of_mem_rungs {n : Nat} (h : e ∈ rungs n) : e.id ≤ n := by
  induction n with
  | zero => exact (congrArg Handle.id (List.mem_singleton.1 h)).le
  | succ n ih =>
    rcases List.mem_cons.1 h with rfl | h
    · exact le_rfl
    · exact (ih h).trans n.le_succ

theorem fragment_ladder (mount : MountId) (e : Handle) :
    (ladder.fragment mount e).isDetached = false ∧ (ladder.fragment mount e).name = [97] := by
  have hname : (ladder.fragment mount e).name = [97] :=
    name_fragment (nulFree_numbered e (Set.mem_univ e))
  refine ⟨eq_false_of_ne_true fun hdetached => ?_, hname⟩
  have hnone := (Fragment.isDetached_iff (Fragment.parent_of_isDetached hdetached)).1 hdetached
  simp [hname] at hnone

/-- An entry that is too deep for one walk, and then one that is not, on the same chain. -/
def deepThenShallow : List Leaf := [⟨1, ⟨76⟩⟩, ⟨1, ⟨74⟩⟩]

theorem mem_deepThenShallow : ∀ leaf ∈ deepThenShallow, leaf.entry ∈ ladder.entries :=
  fun leaf _ => Set.mem_univ leaf.entry

theorem kept_deepThenShallow :
    (ladder.resolveAll (.new 152) deepThenShallow).2.table.evictions = 0 :=
  evictions_resolveAll_eq_zero mem_deepThenShallow (by decide)

/-- The walk from the deep entry ends at the last but one, which it marks. -/
theorem written_deep :
    ladder.written (.new 152) [⟨1, ⟨76⟩⟩] =
      ((rungs 76).take maxPathDepth).map (fun e => (ladder.locate 1 e, ladder.fragment 1 e)) ++
        [(ladder.locate 1 ⟨1⟩, .detached)] := by
  have hlast : (rungs 76).drop maxPathDepth = rungs 1 := drop_rungs 1 75
  rw [written, written, List.append_nil, ascent_eq (leads_rungs 76) (Set.mem_univ _),
    written_of_absent (leads_rungs 76) (Set.mem_univ _) _ fun e _ => Table.peek?_new _ _, hlast]
  rfl

/-- The second entry was stored by the first walk, so that nothing more happens. -/
theorem resolve_shallow :
    (ladder.resolve (ladder.resolve (.new 152) ⟨1, ⟨76⟩⟩).2 ⟨1, ⟨74⟩⟩).1 = false ∧
      ladder.written (.new 152) deepThenShallow = ladder.written (.new 152) [⟨1, ⟨76⟩⟩] := by
  have hleaf : ∀ leaf ∈ [(⟨1, ⟨76⟩⟩ : Leaf)], leaf.entry ∈ ladder.entries :=
    fun leaf _ => Set.mem_univ leaf.entry
  have hkept : (ladder.resolveAll (.new 152) [⟨1, ⟨76⟩⟩]).2.table.evictions = 0 :=
    evictions_resolveAll_eq_zero hleaf (by decide)
  have hpeek : (ladder.resolve (.new 152) ⟨1, ⟨76⟩⟩).2.table.peek? (ladder.locate 1 ⟨74⟩) =
      some (ladder.fragment 1 ⟨74⟩) := by
    refine (peek?_resolveAll hleaf hkept.le).trans ?_
    rw [written_deep, FragmentStore.leave_eq_some_iff]
    refine Or.inl ⟨[⟨76⟩, ⟨75⟩].map fun e => (ladder.locate 1 e, ladder.fragment 1 e),
      ((rungs 73).take 72).map (fun e => (ladder.locate 1 e, ladder.fragment 1 e)) ++
        [(ladder.locate 1 ⟨1⟩, .detached)], rfl, fun w hw hkey => ?_⟩
    obtain ⟨e, he, hw⟩ : ∃ e : Handle, e.id ≤ 73 ∧ w.1 = ladder.locate 1 e := by
      rcases List.mem_append.1 hw with hw | hw
      · obtain ⟨e, he, rfl⟩ := List.mem_map.1 hw
        exact ⟨e, id_le_of_mem_rungs (List.mem_of_mem_take he), rfl⟩
      · exact ⟨⟨1⟩, by decide, congrArg Prod.fst (List.mem_singleton.1 hw)⟩
    obtain ⟨-, rfl⟩ := (locate_inj (Set.mem_univ _) (Set.mem_univ _)).1 (hw.symm.trans hkey)
    exact absurd he (by decide)
  have hends : (ladder.resolve (.new 152) ⟨1, ⟨76⟩⟩).2.endsAt (ladder.locate 1 ⟨74⟩) = true := by
    rw [FragmentStore.endsAt, hpeek]
    exact congrArg (! ·) (fragment_ladder 1 ⟨74⟩).1
  obtain ⟨above, habove⟩ := exists_levels (leads_rungs 74) 74
  have hascent : ascent (.still ladder.accessor) ⟨74⟩ = ladder.level ⟨74⟩ :: above :=
    (ascent_eq (leads_rungs 74) (Set.mem_univ _)).trans habove
  constructor
  · rw [resolve_eq (Set.mem_univ _), hascent, FragmentStore.storeLevels_of_stored hends]
  · rw [deepThenShallow, written, written, written, hascent,
      FragmentStore.written_of_stored hends]
    rfl

/-- The mark stands for `1`, and for no other entry. -/
theorem cut_deepThenShallow_iff :
    ladder.Cut (.new 152) deepThenShallow 1 e ↔ e = ⟨1⟩ := by
  rw [Cut, and_iff_right (fragment_ladder 1 e).1, resolve_shallow.2, written_deep]
  constructor
  · rintro ⟨before, after, hsplit, -⟩
    have hmem := List.mem_append.1 (hsplit ▸ List.mem_append_right before List.mem_cons_self)
    rcases hmem with hmem | hmem
    · obtain ⟨e', -, he'⟩ := List.mem_map.1 hmem
      have hdetached := congrArg (fun w => w.2.isDetached) he'
      simp [(fragment_ladder 1 e').1] at hdetached
    · have hkey := congrArg Prod.fst (List.mem_singleton.1 hmem)
      exact ((locate_inj (Set.mem_univ _) (Set.mem_univ _)).1 hkey).2
  · rintro rfl
    exact ⟨_, [], rfl, fun w hw => absurd hw List.not_mem_nil⟩

/-- The links of the second entry end at the mark. -/
theorem follows_deepThenShallow :
    Follows (ladder.resolveAll (.new 152) deepThenShallow).2.table (ladder.locate 1 ⟨74⟩)
      (List.replicate 73 [97] ++ [[]]) := by
  have hchain : ladder.Leads ⟨74⟩ ((rungs 74).take 73 ++ ⟨1⟩ :: rungs 0) := by
    have hsplit : (rungs 74).take 73 ++ ⟨1⟩ :: rungs 0 = rungs 74 := rfl
    exact hsplit ▸ leads_rungs 74
  have hleaf : (⟨1, ⟨74⟩⟩ : Leaf) ∈ deepThenShallow :=
    List.mem_cons_of_mem _ List.mem_cons_self
  obtain ⟨-, hends, -⟩ := follows_iff_not_cut 152 mem_deepThenShallow kept_deepThenShallow hleaf
    hchain
  have hbelow : ∀ b ∈ (rungs 74).take 73, ¬ ladder.Cut (.new 152) deepThenShallow 1 b := by
    intro b hb hcut
    obtain rfl := cut_deepThenShallow_iff.1 hcut
    exact absurd hb (by decide)
  have hnames := hends _ ⟨1⟩ (rungs 0) rfl hbelow (cut_deepThenShallow_iff.2 rfl)
  rwa [List.map_congr_left fun e _ => (fragment_ladder 1 e).2, List.map_const'] at hnames

/-- An entry whose walk reports nothing, with a chain that was cut by a walk from deeper down. -/
theorem cut_of_deeper :
    ¬ ∀ (T : FixedTree) (capacity : Nat) (leaves : List Leaf) (leaf : Leaf) (chain : List Handle),
      (∀ leaf ∈ leaves, leaf.entry ∈ T.entries) → leaf.entry ∈ T.entries →
      (T.resolveAll (.new capacity) (leaves ++ [leaf])).2.table.evictions = 0 →
      (T.resolve (T.resolveAll (.new capacity) leaves).2 leaf).1 = false →
      T.Leads leaf.entry chain →
        Follows (T.resolveAll (.new capacity) (leaves ++ [leaf])).2.table
          (T.locate leaf.mount leaf.entry) (chain.map fun e => (T.fragment leaf.mount e).name) := by
  intro hwhole
  have hfollows := hwhole ladder 152 [⟨1, ⟨76⟩⟩] ⟨1, ⟨74⟩⟩ (rungs 74)
    (fun leaf _ => Set.mem_univ leaf.entry) (Set.mem_univ _) kept_deepThenShallow
    resolve_shallow.1 (leads_rungs 74)
  obtain ⟨hlinked, hstored⟩ :=
    linked_resolveAll mem_deepThenShallow kept_deepThenShallow.le (linked_new 152)
  have hmarked := (marked_iff_cut mem_deepThenShallow kept_deepThenShallow).2
    (cut_deepThenShallow_iff.2 rfl)
  have hleaf : (⟨1, ⟨74⟩⟩ : Leaf) ∈ deepThenShallow :=
    List.mem_cons_of_mem _ List.mem_cons_self
  have hmem : (⟨1⟩ : Handle) ∈ rungs 74 := by
    have hdrop : (⟨1⟩ : Handle) ∈ (rungs 74).drop 73 := List.mem_cons_self
    exact List.mem_of_mem_drop hdrop
  exact not_follows_of_marked hlinked (leads_rungs 74) (Set.mem_univ _) (hstored _ hleaf) hmem
    hmarked hfollows

end FixedTree

end FsTrace
