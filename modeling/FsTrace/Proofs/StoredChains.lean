import FsTrace.Proofs.SharedChains

/-!
# What a store holds without evictions

As long as nothing is evicted and no walk runs out of depth, a store holds just the fragments of the
resolved entries and of the entries on their chains. The order in which the entries were resolved,
and how often, leaves no trace in it.

* `FixedTree.peek?_resolveAll_iff`: the fragments that are stored, and under which keys;
* `FixedTree.stored_chains`: the same with names and parents, and the chains that can be followed.
-/

namespace FsTrace

namespace FixedTree

variable {T : FixedTree} {capacity : Nat} {leaves : List Leaf}

/-- Without an eviction, the fragments stored are those of the resolved entries and of all entries
on their chains. -/
theorem peek?_resolveAll_iff (hleaves : ∀ leaf ∈ leaves, leaf.entry ∈ T.entries)
    (hfinishes : T.Finishes (.new capacity) leaves)
    (hkept : (T.resolveAll (.new capacity) leaves).2.table.evictions = 0) {key : Location}
    {f : Fragment} :
    (T.resolveAll (.new capacity) leaves).2.table.peek? key = some f ↔
      ∃ leaf ∈ leaves, ∃ e, T.Reaches leaf.entry e ∧
        key = T.locate leaf.mount e ∧ f = T.fragment leaf.mount e := by
  have hstored : ((T.resolveAll (.new capacity) leaves).2.table.peek? key).isSome ↔
      ∃ leaf ∈ leaves, ∃ e, T.Reaches leaf.entry e ∧ key = T.locate leaf.mount e := by
    rw [isSome_resolveAll_new_iff hleaves hfinishes]
    exact and_iff_left (not_lost_of_evictions_eq_zero hleaves hkept key)
  have hfaithful := faithful_resolveAll hleaves hfinishes (faithful_new (T := T) capacity)
  -- the key tells the entry and the mount, and these the fragment
  have own : ∀ {leaf e f}, leaf ∈ leaves → T.Reaches leaf.entry e →
      (T.resolveAll (.new capacity) leaves).2.table.peek? (T.locate leaf.mount e) = some f →
      f = T.fragment leaf.mount e := by
    intro leaf e f hleaf he hf
    obtain ⟨mount, e', he', hkey, rfl⟩ := hfaithful _ f hf
    obtain ⟨rfl, rfl⟩ := (locate_inj (mem_of_reaches (hleaves leaf hleaf) he) he').1 hkey
    rfl
  constructor
  · intro hf
    obtain ⟨leaf, hleaf, e, he, rfl⟩ := hstored.1 (Option.isSome_iff_exists.2 ⟨f, hf⟩)
    exact ⟨leaf, hleaf, e, he, rfl, own hleaf he hf⟩
  · rintro ⟨leaf, hleaf, e, he, rfl, rfl⟩
    obtain ⟨f, hf⟩ := Option.isSome_iff_exists.1 (hstored.2 ⟨leaf, hleaf, e, he, rfl⟩)
    rw [hf, own hleaf he hf]

/-- **What a store holds.** Entries of a tree that stays as it is are resolved one after another,
in any order and as often as one likes, from an empty store. If no walk runs out of depth and
nothing is evicted, the store holds one fragment for each resolved entry and each entry above it up
to the first boundary, with the cut name and the location of the parent, and nothing else.
Following the stored links from a resolved entry gives the names on its chain. Another such run over
the same entries ends with the same fragments under the same keys. -/
theorem stored_chains (hnul : T.NulFree) (hleaves : ∀ leaf ∈ leaves, leaf.entry ∈ T.entries)
    (hfinishes : T.Finishes (.new capacity) leaves)
    (hkept : (T.resolveAll (.new capacity) leaves).2.table.evictions = 0) :
    (∀ key f, (T.resolveAll (.new capacity) leaves).2.table.peek? key = some f ↔
      ∃ leaf ∈ leaves, ∃ e, T.Reaches leaf.entry e ∧
        key = T.locate leaf.mount e ∧ f = T.fragment leaf.mount e) ∧
    (∀ leaf ∈ leaves, ∀ e, T.Reaches leaf.entry e →
      ∃ f, (T.resolveAll (.new capacity) leaves).2.table.peek? (T.locate leaf.mount e) = some f ∧
        f.name = (T.name e).take (nameSize - 1) ∧
        f.parent = if T.IsBoundary e then .nowhere else T.locate leaf.mount (T.parent e)) ∧
    (∀ leaf ∈ leaves, ∀ chain, T.Leads leaf.entry chain → ∀ names,
      Follows (T.resolveAll (.new capacity) leaves).2.table (T.locate leaf.mount leaf.entry) names ↔
        names = chain.map fun e => (T.name e).take (nameSize - 1)) ∧
    (∀ capacity' leaves', (∀ leaf, leaf ∈ leaves' ↔ leaf ∈ leaves) →
      T.Finishes (.new capacity') leaves' →
      (T.resolveAll (.new capacity') leaves').2.table.evictions = 0 →
      ∀ key, (T.resolveAll (.new capacity') leaves').2.table.peek? key =
        (T.resolveAll (.new capacity) leaves).2.table.peek? key) := by
  have hiff : ∀ {key f}, (T.resolveAll (.new capacity) leaves).2.table.peek? key = some f ↔
      ∃ leaf ∈ leaves, ∃ e, T.Reaches leaf.entry e ∧
        key = T.locate leaf.mount e ∧ f = T.fragment leaf.mount e :=
    peek?_resolveAll_iff hleaves hfinishes hkept
  refine ⟨fun _ _ => hiff, fun leaf hleaf e he => ?_, fun leaf hleaf chain hchain names => ?_,
    fun capacity' leaves' hsame hfinishes' hkept' key => ?_⟩
  · have hmem : e ∈ T.entries := mem_of_reaches (hleaves leaf hleaf) he
    exact ⟨T.fragment leaf.mount e, hiff.2 ⟨leaf, hleaf, e, he, rfl, rfl⟩,
      name_fragment (hnul e hmem), rfl⟩
  · have hfaithful := faithful_resolveAll hleaves hfinishes (faithful_new (T := T) capacity)
    have hstored : ∀ e ∈ chain, ((T.resolveAll (.new capacity) leaves).2.table.peek?
        (T.locate leaf.mount e)).isSome := by
      intro e he
      rw [hiff.2 ⟨leaf, hleaf, e, ⟨chain, hchain, he⟩, rfl, rfl⟩]
      rfl
    have hnames : (chain.map fun e => (T.fragment leaf.mount e).name) =
        chain.map fun e => (T.name e).take (nameSize - 1) :=
      List.map_congr_left fun e he =>
        name_fragment (hnul e (mem_of_leads (hleaves leaf hleaf) hchain he))
    rw [follows_iff hfaithful hchain (hleaves leaf hleaf), hnames]
    exact and_iff_right hstored
  · have hleaves' : ∀ leaf ∈ leaves', leaf.entry ∈ T.entries :=
      fun leaf hleaf => hleaves leaf ((hsame leaf).1 hleaf)
    refine Option.ext fun f => ?_
    rw [peek?_resolveAll_iff hleaves' hfinishes' hkept', hiff]
    simp only [hsame]

/-- The tree in which every number is the parent of the next. -/
def ladder : FixedTree := numbered (· - 1) Nat.pred_le

theorem isBoundary_ladder_iff {n : Nat} : ladder.IsBoundary ⟨n⟩ ↔ n = 0 := by
  have hnumbered : (Listing.numbered (· - 1)).IsBoundary ⟨n⟩ ↔ n - 1 = n :=
    Listing.isBoundary_numbered_iff
  exact hnumbered.trans (by omega)

/-- In the ladder, the chain of `2` is stored with three names, in whichever order the entries
come. -/
theorem stored_chains_ladder :
    Follows (ladder.resolveAll (.new 400) [⟨7, ⟨2⟩⟩, ⟨7, ⟨1⟩⟩, ⟨7, ⟨2⟩⟩]).2.table ⟨3, 7⟩
        [[97], [97], [97]] ∧
      ∀ key, (ladder.resolveAll (.new 200) [⟨7, ⟨1⟩⟩, ⟨7, ⟨2⟩⟩]).2.table.peek? key =
        (ladder.resolveAll (.new 400) [⟨7, ⟨2⟩⟩, ⟨7, ⟨1⟩⟩, ⟨7, ⟨2⟩⟩]).2.table.peek? key := by
  have hentries : ∀ leaves : List Leaf, ∀ leaf ∈ leaves, leaf.entry ∈ ladder.entries :=
    fun _ leaf _ => Set.mem_univ leaf.entry
  have hfinishes : ∀ capacity (leaves : List Leaf), (∀ leaf ∈ leaves, leaf.entry.id ≤ 2) →
      ladder.Finishes (.new capacity) leaves := by
    intro capacity leaves hsmall
    refine finishes_of_length_le (hentries leaves) fun leaf hleaf chain hchain => ?_
    have hlength : chain.length ≤ leaf.entry.id + 1 :=
      Listing.length_le_of_leads_numbered Nat.pred_le hchain
    exact hlength.trans (Nat.succ_le_succ ((hsmall leaf hleaf).trans (by decide)))
  have hkept : ∀ capacity (leaves : List Leaf),
      (maxPathDepth + 1) * leaves.length ≤ max capacity 1 →
      (ladder.resolveAll (.new capacity) leaves).2.table.evictions = 0 := by
    exact fun capacity leaves hroom => evictions_resolveAll_eq_zero (hentries leaves) hroom
  have hchain : ladder.Leads ⟨2⟩ [⟨2⟩, ⟨1⟩, ⟨0⟩] := by
    refine .step ?_ (.step ?_ (.boundary (isBoundary_ladder_iff.2 rfl)))
    · exact mt isBoundary_ladder_iff.1 (by decide)
    · exact mt isBoundary_ladder_iff.1 (by decide)
  obtain ⟨-, -, hfollows, hsame⟩ := stored_chains nulFree_numbered (hentries _)
    (hfinishes 400 [⟨7, ⟨2⟩⟩, ⟨7, ⟨1⟩⟩, ⟨7, ⟨2⟩⟩] (by decide)) (hkept 400 _ (by decide))
  refine ⟨(hfollows ⟨7, ⟨2⟩⟩ List.mem_cons_self _ hchain _).2 rfl, ?_⟩
  exact hsame 200 [⟨7, ⟨1⟩⟩, ⟨7, ⟨2⟩⟩] (by simp [or_comm]) (hfinishes _ _ (by decide))
    (hkept _ _ (by decide))

end FixedTree

end FsTrace
