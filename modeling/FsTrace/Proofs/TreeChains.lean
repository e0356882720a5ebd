import FsTrace.Proofs.LinkedChains
import FsTrace.Proofs.SoundTrees

/-!
# Chains of sound trees

What can be read of a sound tree as long as it stays as it is.

* `Tree.listing`, `Tree.Sound.exists_path`: the parent links of every entry lead to the root, and
  give its path;
* `Tree.Sound.fixed`: the live entries as a tree that stays as it is;
* `Tree.fragment`: what is stored of an entry. `Tree.Sound.ascent_eq`: the ascent from an entry,
  live or not, is what is read of it and then the chain of its directory;
* `Tree.Shallow`: every path is short enough for one ascent, and then no walk runs out of depth
  (`Tree.Sound.fst_resolve`).
-/

namespace FsTrace

namespace Tree

variable {t t' : Tree} {dirs : Finset Handle} {d e : Handle} {node : Node} {hidden : Set Handle}
  {s : FragmentStore} {key : Location}

theorem inodeOf_congr (h : t'.nodes[d]? = t.nodes[d]?) :
    t'.accessor.inodeOf d = t.accessor.inodeOf d := by
  simp only [Accessor.inodeOf, accessor, h]

/-! ### Paths -/

/-- The names, parents and inodes of a tree. -/
def listing (t : Tree) : Listing where
  name d := (t.nodes[d]?.map (·.name)).getD []
  parent := t.accessor.parentOf
  inode := t.accessor.inodeOf

theorem name_listing (hnode : t.nodes[d]? = some node) : t.listing.name d = node.name := by
  simp [listing, hnode]

theorem parent_listing (hnode : t.nodes[d]? = some node) : t.listing.parent d = node.parent := by
  simp [listing, Accessor.parentOf, accessor, hnode]

@[simp] theorem namesToRoot?_root (t : Tree) (steps : Nat) :
    t.namesToRoot? root steps = some [] := by
  unfold namesToRoot?
  exact if_pos rfl

theorem namesToRoot?_of_node (hnode : t.nodes[d]? = some node) (hd : d ≠ root)
    (hname : node.name ≠ []) (hself : node.parent ≠ d) (steps : Nat) :
    t.namesToRoot? d (steps + 1) = (t.namesToRoot? node.parent steps).map (node.name :: ·) := by
  rw [namesToRoot?, if_neg hd]
  simp only [hnode]
  rw [if_neg (by simp [hname, hself])]

/-- A path ends at the root, or it leads on from the parent of an entry that has a name. -/
theorem namesToRoot?_cases {names : List Bytes} {steps : Nat}
    (h : t.namesToRoot? d steps = some names) :
    d = root ∧ names = [] ∨ ∃ n node above, steps = n + 1 ∧ d ≠ root ∧ t.nodes[d]? = some node ∧
      node.name ≠ [] ∧ node.parent ≠ d ∧ t.namesToRoot? node.parent n = some above ∧
        names = node.name :: above := by
  unfold namesToRoot? at h
  split at h
  · next hd => exact Or.inl ⟨hd, (Option.some.inj h).symm⟩
  · next hd =>
    cases steps with
    | zero => cases h
    | succ n =>
      simp only at h
      split at h
      · cases h
      · next node hnode =>
        split at h
        · cases h
        · next hgood =>
          obtain ⟨above, habove, rfl⟩ := Option.map_eq_some_iff.1 h
          have hname : node.name ≠ [] := fun hname => hgood (Or.inl (by simp [hname]))
          have hself : node.parent ≠ d := fun hself => hgood (Or.inr hself)
          exact Or.inr ⟨n, node, above, rfl, hd, hnode, hname, hself, habove, rfl⟩

namespace Sound

variable {chain : List Handle}

/-- Only the root has nothing above it. -/
theorem isBoundary_iff (h : t.Sound dirs) (hnode : t.nodes[d]? = some node) :
    t.listing.IsBoundary d ↔ d = root := by
  rw [Listing.IsBoundary, name_listing hnode, parent_listing hnode]
  constructor
  · intro hboundary
    by_contra hd
    have hname := h.goodName d node hnode hd
    rcases hboundary with hparent | hempty | hslash
    · exact lt_irrefl _ (hparent ▸ h.parent_lt d node hnode hd)
    · exact hname.ne_nil hempty
    · exact hname.head_ne hslash
  · rintro rfl
    obtain rfl := Option.some.inj (hnode.symm.trans h.root_eq)
    exact Or.inl rfl

/-- The parent links of every entry lead to the root. -/
theorem exists_leads (h : t.Sound dirs) (hnode : t.nodes[d]? = some node) :
    ∃ chain, t.listing.Leads d chain := by
  obtain ⟨n, hn⟩ : ∃ n, d.id = n := ⟨_, rfl⟩
  induction n using Nat.strong_induction_on generalizing d node with
  | _ n ih =>
    by_cases hd : d = root
    · exact ⟨_, .boundary ((h.isBoundary_iff hnode).2 hd)⟩
    · obtain ⟨above, hparent, -⟩ := h.exists_of_mem _ (h.parent_mem d node hnode)
      obtain ⟨chain, hchain⟩ := ih _ (hn ▸ h.parent_lt d node hnode hd) hparent rfl
      exact ⟨_, .step (mt (h.isBoundary_iff hnode).1 hd) ((parent_listing hnode).symm ▸ hchain)⟩

theorem exists_of_leads (h : t.Sound dirs) (hnode : t.nodes[d]? = some node)
    (hchain : t.listing.Leads d chain) (he : e ∈ chain) : ∃ node, t.nodes[e]? = some node := by
  induction hchain generalizing node with
  | boundary => exact List.mem_singleton.1 he ▸ ⟨node, hnode⟩
  | step _ _ ih =>
    rcases List.mem_cons.1 he with rfl | he
    · exact ⟨node, hnode⟩
    · obtain ⟨above, hparent, -⟩ := h.exists_of_mem _ (h.parent_mem _ node hnode)
      exact ih ((parent_listing hnode).symm ▸ hparent) he

/-- A chain is no longer than there are entries. -/
theorem length_le_size (h : t.Sound dirs) (hnode : t.nodes[d]? = some node)
    (hchain : t.listing.Leads d chain) : chain.length ≤ t.size := by
  have hkeys : chain ⊆ t.nodes.keys := by
    intro e he
    obtain ⟨node', hnode'⟩ := h.exists_of_leads hnode hchain he
    exact Std.HashMap.mem_keys.2 (Std.HashMap.mem_iff_isSome_getElem?.2 (hnode' ▸ rfl))
  rw [size, ← Std.HashMap.length_keys]
  exact (hchain.nodup.subperm hkeys).length_le

theorem namesToRoot?_of_leads (h : t.Sound dirs) (hnode : t.nodes[d]? = some node)
    (hchain : t.listing.Leads d chain) {steps : Nat} (hsteps : chain.length ≤ steps + 1) :
    ∃ names, t.namesToRoot? d steps = some names ∧
      names ++ [[Bytes.slash]] = chain.map t.listing.name := by
  induction hchain generalizing node steps with
  | @boundary d hboundary =>
    obtain rfl := (h.isBoundary_iff hnode).1 hboundary
    refine ⟨[], namesToRoot?_root t steps, ?_⟩
    rw [List.map_singleton, name_listing h.root_eq]
    rfl
  | @step d above hboundary habove ih =>
    have hd : d ≠ root := mt (h.isBoundary_iff hnode).2 hboundary
    obtain ⟨parent, hparent, -⟩ := h.exists_of_mem _ (h.parent_mem d node hnode)
    rw [parent_listing hnode] at ih habove
    obtain ⟨steps, rfl⟩ : ∃ n, steps = n + 1 := by
      have := List.length_pos_of_mem habove.head_mem
      rw [List.length_cons] at hsteps
      exact ⟨steps - 1, by omega⟩
    obtain ⟨names, hnames, heq⟩ := ih hparent (Nat.le_of_succ_le_succ hsteps)
    have hname := h.goodName d node hnode hd
    have hself : node.parent ≠ d := fun heq => by
      have := h.parent_lt d node hnode hd
      rw [heq] at this
      exact lt_irrefl _ this
    refine ⟨node.name :: names, ?_, ?_⟩
    · rw [namesToRoot?_of_node hnode hd hname.ne_nil hself, hnames]
      rfl
    · rw [List.cons_append, heq, List.map_cons, name_listing hnode]

/-- Every entry has a path, whose names are those on its chain. -/
theorem exists_path (h : t.Sound dirs) (hnode : t.nodes[d]? = some node) :
    ∃ chain names, t.listing.Leads d chain ∧ t.namesToRoot? d (t.size + 1) = some names ∧
      names ++ [[Bytes.slash]] = chain.map t.listing.name := by
  obtain ⟨chain, hchain⟩ := h.exists_leads hnode
  have hlength : chain.length ≤ t.size + 1 + 1 :=
    (h.length_le_size hnode hchain).trans (by omega)
  obtain ⟨names, hnames, heq⟩ := h.namesToRoot?_of_leads hnode hchain hlength
  exact ⟨chain, names, hchain, hnames, heq⟩

/-! ### Trees that stay as they are for a while -/

/-- The live entries that are not hidden, as long as the tree stays as it is. -/
def fixed (h : t.Sound dirs) (hidden : Set Handle) (hshown : ∀ d ∈ dirs, d ∉ hidden) :
    FixedTree where
  toListing := t.listing
  accessor := t.accessor
  entries := {d | t.accessor.inodeOf d ≠ 0 ∧ d ∉ hidden}
  read_name d hd size := by
    obtain ⟨node, hnode, -⟩ := exists_node hd.1
    rw [name_listing hnode, List.length_take, Nat.min_comm]
    simp [accessor, hnode]
  read_parent d hd := by
    obtain ⟨node, hnode, -⟩ := exists_node hd.1
    rw [parent_listing hnode]
    simp [accessor, hnode]
  read_inode d hd := by
    obtain ⟨node, hnode, -⟩ := exists_node hd.1
    show t.accessor.inode d = some (t.accessor.inodeOf d)
    rw [inodeOf_of hnode]
    simp [accessor, hnode]
  inode_ne_zero _ hd := hd.1
  inode_injOn := by
    intro d hd e he heq
    obtain ⟨node, hnode, hinode⟩ := exists_node hd.1
    obtain ⟨node', hnode', hinode'⟩ := exists_node he.1
    have heq : t.accessor.inodeOf d = t.accessor.inodeOf e := heq
    exact h.inode_inj d e node node' hnode hnode' (hinode ▸ hd.1) (by rw [hinode, hinode', heq])
  parent_mem d hd _ := by
    obtain ⟨node, hnode, -⟩ := exists_node hd.1
    have hparent := h.parent_mem d node hnode
    rw [parent_listing hnode]
    exact ⟨h.inodeOf_ne_zero hparent, hshown _ hparent⟩
  leads d hd := by
    obtain ⟨node, hnode, -⟩ := exists_node hd.1
    exact h.exists_leads hnode

end Sound

/-- What an ascent reads of an entry whose name is short enough. -/
theorem fst_readLevel_of (hnode : t.nodes[d]? = some node) (hlength : node.name.length < nameSize)
    (buffer : NameBuffer) :
    (readLevel t.accessor d buffer).1 =
      ⟨d, node.name, node.inode, node.parent, t.accessor.inodeOf node.parent⟩ := by
  have htake : node.name.take (nameSize - 1) = node.name :=
    List.take_of_length_le (Nat.le_sub_one_of_lt hlength)
  have hread : t.accessor.name d (nameSize - 1) =
      some ⟨node.name.take (nameSize - 1), (node.name.take (nameSize - 1)).length⟩ := by
    rw [List.length_take, Nat.min_comm]
    simp [accessor, hnode]
  have hparent : t.accessor.parentOf d = node.parent := parent_listing hnode
  simp only [readLevel, FixedTree.fst_readName hread, htake, inodeOf_of hnode, hparent]

/-! ### What is stored of an entry -/

/-- The location of an entry. -/
def locate (t : Tree) (d : Handle) : Location := ⟨t.accessor.inodeOf d, t.mount⟩

/-- What is stored of an entry: its name and the location of its parent. -/
def fragment (t : Tree) (d : Handle) : Fragment :=
  .ofName (if d = root then .nowhere else t.locate (t.accessor.parentOf d)) (t.listing.name d)

theorem parentOf_of (hnode : t.nodes[d]? = some node) : t.accessor.parentOf d = node.parent :=
  parent_listing hnode

theorem fragment_of (hnode : t.nodes[d]? = some node) :
    t.fragment d =
      .ofName (if d = root then .nowhere else t.locate node.parent) node.name := by
  rw [fragment, parentOf_of hnode, name_listing hnode]

namespace Sound

/-- The fixed tree stores the same fragments. -/
theorem fragment_fixed (h : t.Sound dirs) (hshown : ∀ d ∈ dirs, d ∉ hidden)
    (hnode : t.nodes[d]? = some node) :
    (h.fixed hidden hshown).fragment t.mount d = t.fragment d := by
  have hparent : (h.fixed hidden hshown).parentLocation t.mount d =
      if d = root then .nowhere else t.locate (t.accessor.parentOf d) := by
    rw [FixedTree.parentLocation]
    exact if_congr (h.isBoundary_iff hnode) rfl rfl
  rw [FixedTree.fragment, hparent]
  rfl

theorem eq_of_inodeOf_eq (h : t.Sound dirs) (hlive : t.accessor.inodeOf d ≠ 0)
    (heq : t.accessor.inodeOf e = t.accessor.inodeOf d) : e = d := by
  obtain ⟨node, hnode, hinode⟩ := exists_node hlive
  obtain ⟨other, hother, hinode'⟩ := exists_node (heq.trans_ne hlive)
  exact h.inode_inj e d other node hother hnode (hinode'.trans_ne (heq.trans_ne hlive))
    (hinode'.trans (heq.trans hinode.symm))

theorem goodBytes (h : t.Sound dirs) (hnode : t.nodes[d]? = some node) :
    node.name ≠ [] ∧ 0 ∉ node.name ∧ node.name.length < nameSize := by
  by_cases hd : d = root
  · subst hd
    obtain rfl := Option.some.inj (hnode.symm.trans h.root_eq)
    decide
  · have hname := h.goodName d node hnode hd
    exact ⟨hname.ne_nil, hname.nulFree, hname.length_lt⟩

theorem name_fragment (h : t.Sound dirs) (hnode : t.nodes[d]? = some node) :
    (t.fragment d).name = t.listing.name d := by
  obtain ⟨-, hnul, hlength⟩ := h.goodBytes hnode
  rw [fragment, name_listing hnode, Fragment.name_ofName hnul,
    List.take_of_length_le (Nat.le_sub_one_of_lt hlength)]

theorem fragment_ne_detached (h : t.Sound dirs) (hnode : t.nodes[d]? = some node) :
    t.fragment d ≠ .detached := by
  intro hdetached
  have hname := h.name_fragment hnode
  rw [hdetached, Fragment.name_detached, name_listing hnode] at hname
  exact (h.goodBytes hnode).1 hname.symm

theorem inodeOf_mem (h : t.Sound dirs) (hlive : t.accessor.inodeOf d ≠ 0) :
    rootInode ≤ t.accessor.inodeOf d ∧ t.accessor.inodeOf d < t.nextInode := by
  obtain ⟨node, hnode, hinode⟩ := exists_node hlive
  rw [← hinode] at hlive ⊢
  exact h.inode_mem d node hnode hlive

/-! ### Walks -/

/-- What an ascent reads of an entry, live or not. -/
theorem fst_readLevel (h : t.Sound dirs) (hnode : t.nodes[d]? = some node) (buffer : NameBuffer) :
    (readLevel t.accessor d buffer).1 =
      ⟨d, node.name, node.inode, node.parent, t.accessor.inodeOf node.parent⟩ :=
  fst_readLevel_of hnode (h.goodBytes hnode).2.2 buffer

theorem isBoundary_level (h : t.Sound dirs) (hnode : t.nodes[d]? = some node) :
    (⟨d, node.name, node.inode, node.parent, t.accessor.inodeOf node.parent⟩ :
      Level).isBoundary = true ↔ d = root := by
  simp only [Level.isBoundary, decide_eq_true_eq, List.isEmpty_iff]
  constructor
  · rintro hboundary
    by_contra hd
    have hname := h.goodName d node hnode hd
    have hlt := h.parent_lt d node hnode hd
    obtain ⟨above, hparent, hlive⟩ := h.exists_of_mem _ (h.parent_mem d node hnode)
    rcases hboundary with hself | hinode | hempty | hslash
    · exact lt_irrefl _ (hself ▸ hlt)
    · -- no other entry shares the inode of a directory
      rw [inodeOf_of hparent] at hinode
      have hsame := h.inode_inj _ _ above node hparent hnode hlive hinode.symm
      exact lt_irrefl _ (hsame ▸ hlt)
    · exact hname.ne_nil hempty
    · exact hname.head_ne hslash
  · rintro rfl
    obtain rfl := Option.some.inj (hnode.symm.trans h.root_eq)
    exact Or.inl rfl

/-- The ascent from an entry: what is read of it, and then the chain of its directory. -/
theorem ascent_eq (h : t.Sound dirs) (hshown : ∀ d ∈ dirs, d ∉ hidden)
    (hnode : t.nodes[d]? = some node) :
    ∃ level above, ascent (.still t.accessor) d = level :: above ∧
      Fragment.ofName (FragmentStore.parentLocation t.mount level) level.name = t.fragment d ∧
      FragmentStore.parentLocation t.mount level =
        (if d = root then .nowhere else t.locate node.parent) ∧
      (d ≠ root → ∃ chain, t.listing.Leads node.parent chain ∧
        above = (chain.take (maxPathDepth - 1)).map (h.fixed hidden hshown).level) := by
  have hascent : ascent (.still t.accessor) d =
      if (readLevel t.accessor d (.zero _)).1.isBoundary then [(readLevel t.accessor d (.zero _)).1]
      else (readLevel t.accessor d (.zero _)).1 ::
        climb (.still t.accessor) (readLevel t.accessor d (.zero _)).1.parent
          (readLevel t.accessor d (.zero _)).2 (maxPathDepth - 1) := rfl
  have hlocation : FragmentStore.parentLocation t.mount (⟨d, node.name, node.inode, node.parent,
      t.accessor.inodeOf node.parent⟩ : Level) =
        if d = root then .nowhere else t.locate node.parent :=
    if_congr (h.isBoundary_level hnode) rfl rfl
  rw [hascent, h.fst_readLevel hnode]
  by_cases hd : d = root
  · rw [if_pos ((h.isBoundary_level hnode).2 hd)]
    refine ⟨_, [], rfl, ?_, hlocation, fun hne => absurd hd hne⟩
    rw [hlocation, fragment_of hnode]
  · rw [if_neg (mt (h.isBoundary_level hnode).1 hd)]
    refine ⟨_, _, rfl, ?_, hlocation, fun _ => ?_⟩
    · rw [hlocation, fragment_of hnode]
    · have hmem := h.parent_mem d node hnode
      obtain ⟨above, hparent, -⟩ := h.exists_of_mem _ hmem
      obtain ⟨chain, hchain⟩ := h.exists_leads hparent
      have hlive : node.parent ∈ (h.fixed hidden hshown).entries :=
        ⟨h.inodeOf_ne_zero hmem, hshown _ hmem⟩
      exact ⟨chain, hchain, FixedTree.climb_eq hchain hlive _ _⟩

end Sound

/-- Every path is short enough for one ascent. -/
def Shallow (t : Tree) : Prop :=
  ∀ d names, t.namesToRoot? d (t.size + 1) = some names → names.length < maxPathDepth

theorem length_names_le {names : List Bytes} {steps : Nat}
    (hnames : t.namesToRoot? d steps = some names) : names.length ≤ steps := by
  induction steps generalizing d names with
  | zero =>
    rcases namesToRoot?_cases hnames with ⟨-, rfl⟩ | ⟨n, _, _, hn, -⟩
    · exact le_rfl
    · exact absurd hn (Nat.succ_ne_zero n).symm
  | succ steps ih =>
    rcases namesToRoot?_cases hnames with ⟨-, rfl⟩ | ⟨n, _, _, hn, -, -, -, -, habove, rfl⟩
    · exact Nat.zero_le _
    · obtain rfl := Nat.succ.inj hn
      exact Nat.succ_le_succ (ih habove)

theorem shallow_of_size (h : t.size + 1 < maxPathDepth) : t.Shallow :=
  fun _ _ hnames => (length_names_le hnames).trans_lt h

/-- In a shallow tree no walk runs out of depth. -/
theorem Sound.fst_resolve (h : t.Sound dirs) (hshallow : t.Shallow)
    (hnode : t.nodes[d]? = some node) (hmount : key.mount = t.mount) :
    (s.resolve (.still t.accessor) d key).1 = false := by
  have hshown : ∀ d ∈ dirs, d ∉ (∅ : Set Handle) := fun _ _ => id
  obtain ⟨level, above, hascent, -, hnext, habove⟩ := h.ascent_eq hshown hnode
  unfold FragmentStore.resolve
  split
  · rfl
  · rw [hmount, hascent]
    cases hends : s.endsAt key with
    | true => rw [FragmentStore.storeLevels_of_stored hends]
    | false =>
      rw [FragmentStore.storeLevels_of_missing hends, hnext]
      by_cases hd : d = root
      · rw [if_pos hd, if_pos Location.isNowhere_nowhere]
      · have hmem := h.parent_mem d node hnode
        have hsome : ¬ (t.locate node.parent).isNowhere = true := fun hnone =>
          h.inodeOf_ne_zero hmem (congrArg Location.inode (Location.isNowhere_iff.1 hnone))
        obtain ⟨chain, hchain, rfl⟩ := habove hd
        obtain ⟨whole, names, hwhole, hnames, heq⟩ := h.exists_path hnode
        obtain rfl : whole = d :: chain := hwhole.unique <|
          .step (mt (h.isBoundary_iff hnode).1 hd) ((parent_listing hnode).symm ▸ hchain)
        have hlength : chain.length ≤ maxPathDepth - 1 := by
          have hshort := hshallow d names hnames
          have := congrArg List.length heq
          simp only [List.length_append, List.length_cons, List.length_map, List.length_nil] at this
          omega
        rw [if_neg hd, if_neg hsome, List.take_of_length_le hlength]
        exact FixedTree.finished_storeLevels (T := h.fixed ∅ hshown) hchain
          ⟨h.inodeOf_ne_zero hmem, id⟩

/-- The chain of a directory holds only directories. -/
theorem Sound.mem_of_leads (h : t.Sound dirs) (hd : d ∈ dirs) {chain : List Handle}
    (hchain : t.listing.Leads d chain) (he : e ∈ chain) : e ∈ dirs := by
  induction hchain with
  | boundary => exact List.mem_singleton.1 he ▸ hd
  | @step d above _ _ ih =>
    rcases List.mem_cons.1 he with rfl | he
    · exact hd
    · obtain ⟨node, hnode, -⟩ := h.exists_of_mem d hd
      exact ih ((parent_listing hnode).symm ▸ h.parent_mem d node hnode) he

/-- A chain of entries that stay as they are stays as it is. -/
theorem leads_of_same {chain : List Handle} (hchain : t.listing.Leads d chain)
    (hsame : ∀ e ∈ chain, t'.nodes[e]? = t.nodes[e]?) :
    t'.listing.Leads d chain ∧ chain.map t'.listing.name = chain.map t.listing.name := by
  have hread : ∀ e ∈ chain, t'.listing.name e = t.listing.name e ∧
      t'.listing.parent e = t.listing.parent e := by
    intro e he
    simp only [listing, Accessor.parentOf, accessor, hsame e he, and_self]
  refine ⟨?_, List.map_congr_left fun e he => (hread e he).1⟩
  clear hsame
  induction hchain with
  | @boundary d hboundary =>
    obtain ⟨hname, hparent⟩ := hread d List.mem_cons_self
    rw [Listing.IsBoundary, ← hname, ← hparent] at hboundary
    exact .boundary hboundary
  | @step d above hboundary _ ih =>
    obtain ⟨hname, hparent⟩ := hread d List.mem_cons_self
    rw [Listing.IsBoundary, ← hname, ← hparent] at hboundary
    exact .step hboundary (hparent.symm ▸ ih fun e he => hread e (List.mem_cons_of_mem _ he))

end Tree

end FsTrace
