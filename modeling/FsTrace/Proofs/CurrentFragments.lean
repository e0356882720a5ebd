import FsTrace.Proofs.TreeChanges

/-!
# Fragments of a tree that changes

A store of fragments beside a tree that is changed between the walks. What a walk stores stays right
while entries are added, brought to life, removed and forgotten.

* `Tree.Describes`: an entry is stored under a key, and its directory as well;
* `Tree.UpToDate`: every stored fragment of a live entry is its own. Changes keep this
  (`UpToDate.change`), and so does every walk under a key that stands for nothing else
  (`UpToDate.resolve`);
* `Tree.UpToDate.follows`: what is stored of an entry leads along its path; `Tree.Tells` says so of
  any key, also of one without an inode.
-/

namespace FsTrace

namespace Tree

variable {t t' : Tree} {d : Handle} {node : Node} {hidden : Set Handle}

/-! ### What is stored of an entry -/

/-- An entry is stored under a key, and its directory is stored as well. -/
structure Describes (t : Tree) (s : FragmentStore) (key : Location) (d : Handle) : Prop where
  stored : s.table.peek? key = some (t.fragment d)
  parent_stored : d ≠ root → (s.table.peek? (t.locate (t.accessor.parentOf d))).isSome

/-- The number is an inode that was handed out, or a key that was drawn. -/
def Handed (t : Tree) (used : Finset Nat) (n : Nat) : Prop :=
  rootInode ≤ n ∧ n < t.nextInode ∨ n ∈ used

/-- A store beside a tree. Every stored fragment of a live entry that is not hidden is its own, and
leads to one of its directory, unless that is awaited. -/
structure UpToDate (t : Tree) (dirs : Finset Handle) (hidden : Set Handle) (used : Finset Nat)
    (s : FragmentStore) (awaited : Option Location) : Prop where
  sound : t.Sound dirs
  shown : ∀ d ∈ dirs, d ∉ hidden
  apart : ∀ n ∈ used, n ≠ 0 ∧ ¬ (rootInode ≤ n ∧ n < t.nextInode)
  linked : (sound.fixed hidden shown).Linked s awaited
  whole : ∀ key, s.table.peek? key ≠ some .detached
  known : ∀ key, (s.table.peek? key).isSome → key.mount = t.mount ∧ t.Handed used key.inode

/-- An entry may be stored under a key: the key stands for no other entry, and has nothing else
stored. -/
structure Admits (t : Tree) (hidden : Set Handle) (used : Finset Nat) (s : FragmentStore)
    (key : Location) (d : Handle) : Prop where
  mount_eq : key.mount = t.mount
  inode_ne : key.inode ≠ 0
  handed : t.Handed used key.inode
  exists_node : ∃ node, t.nodes[d]? = some node
  own : ∀ e ∉ hidden, t.accessor.inodeOf e = key.inode → e = d
  stored : (s.table.peek? key).isSome → t.Describes s key d

variable {dirs dirs' : Finset Handle} {hidden' : Set Handle} {used : Finset Nat}
  {s s' : FragmentStore} {awaited : Option Location} {key : Location} {chain : List Handle}

/-! ### Stores beside a tree -/

theorem Describes.congr (h : t.Describes s key d)
    (hsame : ∀ k, s'.table.peek? k = s.table.peek? k) : t.Describes s' key d := by
  constructor
  · rw [hsame]
    exact h.stored
  · simpa only [hsame] using h.parent_stored

namespace UpToDate

theorem congr (h : t.UpToDate dirs hidden used s awaited)
    (hsame : ∀ k, s'.table.peek? k = s.table.peek? k) :
    t.UpToDate dirs hidden used s' awaited where
  sound := h.sound
  shown := h.shown
  apart := h.apart
  linked := h.linked.congr hsame
  whole := by simpa only [hsame] using h.whole
  known := by simpa only [hsame] using h.known

theorem of_stored (h : t.UpToDate dirs hidden used s (some key))
    (hstored : (s.table.peek? key).isSome) : t.UpToDate dirs hidden used s none :=
  { h with linked := h.linked.of_stored hstored }

theorem mono (h : t.UpToDate dirs hidden used s none) : t.UpToDate dirs hidden used s awaited :=
  { h with linked := h.linked.mono }

/-- Nothing is stored without an inode. -/
theorem peek?_eq_none (h : t.UpToDate dirs hidden used s awaited) (hkey : key.inode = 0) :
    s.table.peek? key = none := by
  by_contra hstored
  obtain ⟨-, hrange | hused⟩ := h.known key (Option.isSome_iff_ne_none.2 hstored)
  · exact absurd (hkey ▸ hrange.1) (by decide)
  · exact (h.apart _ hused).1 hkey

/-- Storing an awaited entry: now its directory is awaited. -/
theorem store (h : t.UpToDate dirs hidden used s (some key))
    (hadmits : t.Admits hidden used s key d)
    (hkept : ((s.look key).put key (t.fragment d)).table.evictions ≤ s.table.evictions)
    (hnext : d = root ∨ awaited = some (t.locate (t.accessor.parentOf d))) :
    t.UpToDate dirs hidden used ((s.look key).put key (t.fragment d)) awaited := by
  obtain ⟨node, hnode⟩ := hadmits.exists_node
  have hpeek : ∀ k, ((s.look key).put key (t.fragment d)).table.peek? k =
      if key = k then some (t.fragment d) else s.table.peek? k :=
    fun k => FragmentStore.peek?_look_put_of_kept hkept
  refine ⟨h.sound, h.shown, h.apart, ?_, fun k => ?_, fun k hk => ?_⟩
  · refine h.linked.put hpeek fun mount e he hkey => Or.inr ?_
    obtain rfl : e = d := hadmits.own e he.2 (congrArg Location.inode hkey)
    obtain rfl : mount = t.mount := (congrArg Location.mount hkey).trans hadmits.mount_eq
    refine ⟨(h.sound.fragment_fixed h.shown hnode).symm, hnext.imp_left fun hroot => ?_⟩
    exact (h.sound.isBoundary_iff hnode).2 hroot
  · rw [hpeek]
    split
    · exact fun hdetached => h.sound.fragment_ne_detached hnode (Option.some.inj hdetached)
    · exact h.whole k
  · rw [hpeek] at hk
    split at hk
    · next hkey => exact hkey ▸ ⟨hadmits.mount_eq, hadmits.handed⟩
    · exact h.known k hk

section Levels

variable {levels : List Level} (h : t.UpToDate dirs hidden used s awaited) (hd : d ∈ dirs)
  (hchain : t.listing.Leads d chain) (depth : Nat)
  (hlevels : levels = (chain.take depth).map (h.sound.fixed hidden h.shown).level)
  (hkept : (s.storeLevels t.mount (t.locate d) levels).2.table.evictions ≤ s.table.evictions)
  (hwhole : (s.storeLevels t.mount (t.locate d) levels).1 = false)

include hd hchain hlevels hwhole

/-- A walk up from a directory that does not run out of depth writes entries on its way. -/
theorem mem_written {k : Location} {f : Fragment}
    (hmem : (k, f) ∈ FragmentStore.written t.mount s (t.locate d) levels) :
    ∃ e ∈ chain, t.accessor.inodeOf e ≠ 0 ∧ k = t.locate e ∧ f = t.fragment e := by
  subst hlevels
  have hlive : d ∈ (h.sound.fixed hidden h.shown).entries :=
    ⟨h.sound.inodeOf_ne_zero hd, h.shown d hd⟩
  obtain ⟨e, he, rfl, hown⟩ := FixedTree.mem_written hchain hlive depth hmem
  have hlive' := FixedTree.mem_of_reaches hlive he
  obtain ⟨node, hnode, -⟩ := exists_node hlive'.1
  refine ⟨e, hchain.reaches_iff.1 he, hlive'.1, rfl, ?_⟩
  rw [← h.sound.fragment_fixed h.shown hnode]
  exact hown.resolve_right fun hcut => Bool.false_ne_true (hwhole.symm.trans hcut.2)

include hkept

/-- What is stored after such a walk was stored before, or is an entry's own. -/
theorem stored_or_written {k : Location} {f : Fragment}
    (hf : (s.storeLevels t.mount (t.locate d) levels).2.table.peek? k = some f) :
    s.table.peek? k = some f ∨
      ∃ e ∈ chain, t.accessor.inodeOf e ≠ 0 ∧ k = t.locate e ∧ f = t.fragment e := by
  rw [FragmentStore.peek?_storeLevels hkept, FragmentStore.leave_eq_some_iff] at hf
  rcases hf with ⟨before, after, hsplit, -⟩ | ⟨hf, -⟩
  · have hmem : (k, f) ∈ FragmentStore.written t.mount s (t.locate d) levels :=
      hsplit ▸ List.mem_append_right _ List.mem_cons_self
    exact Or.inr (h.mem_written hd hchain depth hlevels hwhole hmem)
  · exact Or.inl hf

/-- Such a walk changes nothing but on its way. -/
theorem peek?_storeLevels_of_off {k : Location} (hoff : ∀ e ∈ chain, k ≠ t.locate e) :
    (s.storeLevels t.mount (t.locate d) levels).2.table.peek? k = s.table.peek? k := by
  refine Option.ext fun f => ⟨fun hf => ?_, fun hf => ?_⟩
  · refine (h.stored_or_written hd hchain depth hlevels hkept hwhole hf).resolve_right ?_
    rintro ⟨e, he, -, hk, -⟩
    exact hoff e he hk
  · rw [FragmentStore.peek?_storeLevels hkept, FragmentStore.leave_eq_some_iff]
    refine Or.inr ⟨hf, ?_⟩
    rintro ⟨k', f'⟩ hmem rfl
    obtain ⟨e, he, -, hk, -⟩ := h.mem_written hd hchain depth hlevels hwhole hmem
    exact hoff e he hk

end Levels

/-- A walk up from an awaited directory. -/
theorem storeLevels (h : t.UpToDate dirs hidden used s (some (t.locate d))) (hd : d ∈ dirs)
    (hchain : t.listing.Leads d chain) (depth : Nat) {levels : List Level}
    (hlevels : levels = (chain.take depth).map (h.sound.fixed hidden h.shown).level)
    (hkept : (s.storeLevels t.mount (t.locate d) levels).2.table.evictions ≤ s.table.evictions)
    (hwhole : (s.storeLevels t.mount (t.locate d) levels).1 = false) :
    t.UpToDate dirs hidden used (s.storeLevels t.mount (t.locate d) levels).2 none ∧
      ((s.storeLevels t.mount (t.locate d) levels).2.table.peek? (t.locate d)).isSome := by
  have hlive : d ∈ (h.sound.fixed hidden h.shown).entries :=
    ⟨h.sound.inodeOf_ne_zero hd, h.shown d hd⟩
  obtain ⟨hlinked, hstored⟩ :=
    FixedTree.linked_storeLevels hchain hlive depth (hlevels ▸ hkept) h.linked
  refine ⟨⟨h.sound, h.shown, h.apart, hlevels ▸ hlinked, fun k hk => ?_, fun k hk => ?_⟩,
    hlevels ▸ hstored⟩
  · rcases h.stored_or_written hd hchain depth hlevels hkept hwhole hk with
      hold | ⟨e, -, hlive, -, hown⟩
    · exact h.whole k hold
    · obtain ⟨node, hnode, -⟩ := exists_node hlive
      exact h.sound.fragment_ne_detached hnode hown.symm
  · obtain ⟨f, hf⟩ := Option.isSome_iff_exists.1 hk
    rcases h.stored_or_written hd hchain depth hlevels hkept hwhole hf with
      hold | ⟨e, -, hlive, rfl, -⟩
    · exact h.known k (hold ▸ rfl)
    · exact ⟨rfl, Or.inl (h.sound.inodeOf_mem hlive)⟩

/-- A walk from an entry, live or not, under a key that admits it. -/
theorem resolve (h : t.UpToDate dirs hidden used s (some key))
    (hadmits : t.Admits hidden used s key d)
    (hkept : (s.resolve (.still t.accessor) d key).2.table.evictions ≤ s.table.evictions)
    (hwhole : (s.resolve (.still t.accessor) d key).1 = false) :
    t.UpToDate dirs hidden used (s.resolve (.still t.accessor) d key).2 none ∧
      t.Describes (s.resolve (.still t.accessor) d key).2 key d ∧
      ∀ k, k ≠ key → k.inode ∈ used →
        (s.resolve (.still t.accessor) d key).2.table.peek? k = s.table.peek? k := by
  obtain ⟨node, hnode⟩ := hadmits.exists_node
  obtain ⟨level, above, hascent, hfragment, hnext, habove⟩ := h.sound.ascent_eq h.shown hnode
  have hresolve : s.resolve (.still t.accessor) d key =
      s.storeLevels t.mount key (level :: above) := by
    rw [FragmentStore.resolve, Location.hasNoInode, if_neg (by simp [hadmits.inode_ne]),
      hadmits.mount_eq, hascent]
  have hlook : ∀ k, (s.look key).table.peek? k = s.table.peek? k := FragmentStore.peek?_look
  rw [hresolve] at hkept hwhole ⊢
  cases hends : s.endsAt key with
  | true =>
    have hstored : (s.table.peek? key).isSome := Option.isSome_of_any hends
    rw [FragmentStore.storeLevels_of_stored hends]
    exact ⟨(h.of_stored hstored).congr hlook, (hadmits.stored hstored).congr hlook,
      fun k _ _ => hlook k⟩
  | false =>
    have hvisit : s.visit t.mount key level = (s.look key).put key (t.fragment d) := by
      rw [FragmentStore.visit, hfragment]
    rw [FragmentStore.storeLevels_of_missing hends, hvisit, hnext] at hkept hwhole ⊢
    by_cases hd : d = root
    · rw [if_pos hd, if_pos Location.isNowhere_nowhere] at hkept hwhole ⊢
      refine ⟨h.store hadmits hkept (Or.inl hd),
        ⟨FragmentStore.peek?_put_self, fun hne => absurd hd hne⟩, fun k hk _ => ?_⟩
      rw [FragmentStore.peek?_look_put_of_kept hkept, if_neg (Ne.symm hk)]
    · have hmem := h.sound.parent_mem d node hnode
      have hsome : ¬ (t.locate node.parent).isNowhere = true := fun hnone =>
        h.sound.inodeOf_ne_zero hmem (congrArg Location.inode (Location.isNowhere_iff.1 hnone))
      obtain ⟨chain, hchain, hlevels⟩ := habove hd
      rw [if_neg hd, if_neg hsome] at hkept hwhole ⊢
      have hstore : ((s.look key).put key (t.fragment d)).table.evictions ≤ s.table.evictions :=
        FragmentStore.evictions_le_storeLevels.trans hkept
      have hup := h.store hadmits hstore
        (Or.inr (congrArg (some <| t.locate ·) (parentOf_of hnode).symm))
      have hput : s.table.evictions ≤ ((s.look key).put key (t.fragment d)).table.evictions :=
        FragmentStore.evictions_le_look_put
      have hkept' := hkept.trans hput
      obtain ⟨hresult, hstored⟩ := hup.storeLevels hmem hchain _ hlevels hkept' hwhole
      have hsame := fun k (hoff : ∀ e ∈ chain, k ≠ t.locate e) =>
        hup.peek?_storeLevels_of_off hmem hchain _ hlevels hkept' hwhole hoff
      have hlive : ∀ e ∈ chain, e ∈ (h.sound.fixed hidden h.shown).entries := fun e he =>
        FixedTree.mem_of_leads ⟨h.sound.inodeOf_ne_zero hmem, h.shown _ hmem⟩ hchain he
      refine ⟨hresult, ⟨?_, fun _ => (parentOf_of hnode).symm ▸ hstored⟩, fun k hk hused => ?_⟩
      · refine (hsame key fun e he hkey => ?_).trans FragmentStore.peek?_put_self
        -- the entry is not above itself
        obtain rfl := hadmits.own e (hlive e he).2 (congrArg Location.inode hkey).symm
        have hboundary := mt (h.sound.isBoundary_iff hnode).1 hd
        exact Listing.not_reaches_parent hboundary
          ⟨chain, (parent_listing hnode).symm ▸ hchain, he⟩
      · rw [hsame k, FragmentStore.peek?_look_put_of_kept hstore, if_neg (Ne.symm hk)]
        rintro e he rfl
        exact (h.apart _ hused).2 (h.sound.inodeOf_mem (hlive e he).1)

end UpToDate

/-- What it means that fragments are linked, in terms of the tree alone. -/
theorem Sound.linked_iff (h : t.Sound dirs) (hshown : ∀ d ∈ dirs, d ∉ hidden)
    (hmount : ∀ key, (s.table.peek? key).isSome → key.mount = t.mount)
    (hwhole : ∀ key, s.table.peek? key ≠ some .detached) :
    (h.fixed hidden hshown).Linked s awaited ↔
      ∀ d f, t.accessor.inodeOf d ≠ 0 → d ∉ hidden → s.table.peek? (t.locate d) = some f →
        f = t.fragment d ∧ (d = root ∨ (s.table.peek? (t.locate (t.accessor.parentOf d))).isSome ∨
          awaited = some (t.locate (t.accessor.parentOf d))) := by
  have hown : ∀ {d : Handle} {f : Fragment}, t.accessor.inodeOf d ≠ 0 →
      (f = (h.fixed hidden hshown).fragment t.mount d ↔ f = t.fragment d) ∧
        ((h.fixed hidden hshown).IsBoundary d ↔ d = root) := by
    intro d f hlive
    obtain ⟨node, hnode, -⟩ := exists_node hlive
    rw [h.fragment_fixed hshown hnode]
    exact ⟨Iff.rfl, h.isBoundary_iff hnode⟩
  constructor
  · intro hlinked d f hlive hd hf
    obtain ⟨hfragment, hroot⟩ := hown (f := f) hlive
    rcases hlinked t.mount d ⟨hlive, hd⟩ f hf with rfl | ⟨hf', hparent⟩
    · exact absurd hf (hwhole _)
    · exact ⟨hfragment.1 hf', hparent.imp_left hroot.1⟩
  · intro hlinked mount d hd f hf
    obtain ⟨hfragment, hroot⟩ := hown (f := f) hd.1
    obtain rfl : mount = t.mount := hmount _ (Option.isSome_of_mem hf)
    obtain ⟨hf', hparent⟩ := hlinked d f hd.1 hd.2 hf
    exact Or.inr ⟨hfragment.2 hf', hparent.imp_left hroot.2⟩

namespace UpToDate

theorem mount_eq (h : t.UpToDate dirs hidden used s awaited) (hkey : (s.table.peek? key).isSome) :
    key.mount = t.mount := (h.known key hkey).1

/-- A stored fragment of a live entry is its own, and leads to its directory. -/
theorem stored (h : t.UpToDate dirs hidden used s awaited) {f : Fragment}
    (hlive : t.accessor.inodeOf d ≠ 0) (hd : d ∉ hidden)
    (hf : s.table.peek? (t.locate d) = some f) :
    f = t.fragment d ∧ (d = root ∨ (s.table.peek? (t.locate (t.accessor.parentOf d))).isSome ∨
      awaited = some (t.locate (t.accessor.parentOf d))) :=
  (h.sound.linked_iff h.shown (fun _ => h.mount_eq) h.whole).1 h.linked d f hlive hd hf

/-- A change of the tree leaves what is stored right. -/
theorem change (h : t.UpToDate dirs hidden used s none)
    (hchange : t.Changes t' dirs' hidden' used) (hhidden : hidden ⊆ hidden') :
    t'.UpToDate dirs' hidden' used s none := by
  have h' := hchange.sound
  have hmount := hchange.mount_eq
  have hapart : ∀ n ∈ used, n ≠ 0 ∧ ¬ (rootInode ≤ n ∧ n < t'.nextInode) := by
    intro n hn
    obtain ⟨hne, hrange⟩ := h.apart n hn
    refine ⟨hne, fun hrange' => ?_⟩
    rcases hchange.handsOut with hsame | ⟨hnew, hfresh⟩
    · exact hrange (hsame ▸ hrange')
    · have hlt : n < t.nextInode + 1 := hnew ▸ hrange'.2
      exact hrange ⟨hrange'.1, (Nat.lt_succ_iff.1 hlt).lt_of_ne fun heq => hfresh (heq ▸ hn)⟩
  refine ⟨h', hchange.shown, hapart, ?_, h.whole, fun k hk => ?_⟩
  · refine (h'.linked_iff hchange.shown (fun _ hk => (h.mount_eq hk).trans hmount.symm)
      h.whole).2 ?_
    intro d f hlive hd hf
    obtain ⟨node, hnode', hinode⟩ := exists_node hlive
    rcases hchange.keeps d node hnode' (hinode ▸ hlive) hd with hnode | ⟨-, hnew⟩
    · have hlocate : t'.locate d = t.locate d := by
        rw [locate, locate, inodeOf_of hnode, inodeOf_of hnode', hmount]
      obtain ⟨hfragment, hparent⟩ := hchange.fragment_eq h.sound hnode hnode' rfl rfl
      rw [hlocate] at hf
      rw [hfragment, hparent]
      exact h.stored ((inodeOf_of hnode).trans_ne (hinode.trans_ne hlive))
        (fun hmem => hd (hhidden hmem)) hf
    · -- nothing is stored of a new entry
      obtain ⟨-, hrange | hused⟩ := h.known _ (Option.isSome_of_mem hf)
      · exact absurd (hnew.trans_eq hinode) (Nat.not_le.2 hrange.2)
      · exact absurd (h'.inodeOf_mem hlive) (hapart _ hused).2
  · obtain ⟨hkmount, hhanded⟩ := h.known k hk
    refine ⟨hkmount.trans hmount.symm, hhanded.imp_left fun hrange => ?_⟩
    exact ⟨hrange.1, hrange.2.trans_le hchange.handsOut.le⟩

/-- A location that is dropped is awaited, until the entry is stored anew. -/
theorem forget (h : t.UpToDate dirs hidden used s none) (hkey : key.mount = t.mount)
    (hhidden : ∀ e ∈ hidden, t.accessor.inodeOf e = key.inode) :
    t.UpToDate dirs ∅ used (s.forget key) (some key) := by
  have hpeek : ∀ {k f}, (s.forget key).table.peek? k = some f →
      k ≠ key ∧ s.table.peek? k = some f := by
    intro k f hf
    rw [FragmentStore.peek?_forget] at hf
    split at hf
    · cases hf
    · next hk => exact ⟨Ne.symm hk, hf⟩
  have hknown : ∀ k, ((s.forget key).table.peek? k).isSome →
      k.mount = t.mount ∧ t.Handed used k.inode := by
    intro k hk
    obtain ⟨f, hf⟩ := Option.isSome_iff_exists.1 hk
    exact h.known k (Option.isSome_of_mem (hpeek hf).2)
  have hwhole : ∀ k, (s.forget key).table.peek? k ≠ some .detached :=
    fun k hk => h.whole k (hpeek hk).2
  refine ⟨h.sound, fun _ _ => id, h.apart, ?_, hwhole, hknown⟩
  refine (h.sound.linked_iff _ (fun k hk => (hknown k hk).1) hwhole).2 fun d f hlive _ hf => ?_
  obtain ⟨hne, hf⟩ := hpeek hf
  have hd : d ∉ hidden := by
    intro hmem
    exact hne (Location.mk.injEq .. ▸ ⟨hhidden d hmem, hkey.symm⟩)
  obtain ⟨hfragment, hparent⟩ := h.stored hlive hd hf
  refine ⟨hfragment, hparent.imp_right fun hparent => ?_⟩
  have hstored := hparent.resolve_right (by simp)
  rw [FragmentStore.peek?_forget]
  split
  · next hk => exact Or.inr (congrArg some hk)
  · exact Or.inl hstored

theorem new (mount : MountId) (device : DeviceId) (capacity : Nat) :
    (Tree.new mount device).UpToDate {root} ∅ ∅ (.new capacity) none := by
  have hnone : ∀ key, (FragmentStore.new capacity).table.peek? key = none :=
    fun key => Table.peek?_new capacity key
  refine ⟨.new mount device, fun _ _ => id, fun _ hn => absurd hn (Finset.notMem_empty _),
    FixedTree.linked_new capacity, fun key hkey => ?_, fun key hkey => ?_⟩
  · rw [hnone] at hkey
    cases hkey
  · rw [hnone] at hkey
    cases hkey

/-! ### What may be stored -/

/-- A live entry may be stored under its own location. -/
theorem admits_own (h : t.UpToDate dirs hidden used s none) (hlive : t.accessor.inodeOf d ≠ 0)
    (hd : d ∉ hidden) : t.Admits hidden used s (t.locate d) d := by
  obtain ⟨node, hnode, hinode⟩ := exists_node hlive
  refine ⟨rfl, hlive, Or.inl (h.sound.inodeOf_mem hlive), ⟨node, hnode⟩, fun e _ he => ?_,
    fun hstored => ?_⟩
  · exact h.sound.eq_of_inodeOf_eq hlive he
  · obtain ⟨f, hf⟩ := Option.isSome_iff_exists.1 hstored
    obtain ⟨rfl, hparent⟩ := h.stored hlive hd hf
    exact ⟨hf, fun hroot => (hparent.resolve_left hroot).resolve_right (by simp)⟩

/-- So may a live entry whose location was just dropped. -/
theorem admits_forgotten (h : t.UpToDate dirs ∅ used (s.forget (t.locate d)) awaited)
    (hlive : t.accessor.inodeOf d ≠ 0) :
    t.Admits ∅ used (s.forget (t.locate d)) (t.locate d) d := by
  obtain ⟨node, hnode, hinode⟩ := exists_node hlive
  refine ⟨rfl, hlive, Or.inl (h.sound.inodeOf_mem hlive), ⟨node, hnode⟩, fun e _ he => ?_,
    fun hstored => ?_⟩
  · exact h.sound.eq_of_inodeOf_eq hlive he
  · rw [FragmentStore.peek?_forget, if_pos rfl] at hstored
    cases hstored

/-- A key is drawn that stands for nothing yet. -/
theorem draw (h : t.UpToDate dirs hidden used s awaited) {n : Nat} (hn : n ≠ 0)
    (hrange : ¬ (rootInode ≤ n ∧ n < t.nextInode)) :
    t.UpToDate dirs hidden (insert n used) s awaited where
  sound := h.sound
  shown := h.shown
  apart := Finset.forall_mem_insert _ _ _ |>.2 ⟨⟨hn, hrange⟩, h.apart⟩
  linked := h.linked
  whole := h.whole
  known k hk := by
    obtain ⟨hmount, hhanded⟩ := h.known k hk
    exact ⟨hmount, hhanded.imp_right (Finset.mem_insert_of_mem ·)⟩

/-- Any entry may be stored under a key that was just drawn. -/
theorem admits_drawn (h : t.UpToDate dirs hidden used s awaited) {n : Nat} (hn : n ≠ 0)
    (hrange : ¬ (rootInode ≤ n ∧ n < t.nextInode)) (hfresh : n ∉ used)
    (hnode : t.nodes[d]? = some node) :
    t.Admits hidden (insert n used) s ⟨n, t.mount⟩ d := by
  refine ⟨rfl, hn, Or.inr (Finset.mem_insert_self n used), ⟨node, hnode⟩, fun e _ he => ?_,
    fun hstored => ?_⟩
  · have he : t.accessor.inodeOf e = n := he
    exact absurd (he ▸ h.sound.inodeOf_mem (he.trans_ne hn)) hrange
  · obtain ⟨-, hhanded⟩ := h.known _ hstored
    exact absurd hhanded (not_or.2 ⟨hrange, hfresh⟩)

/-- What may be stored of an entry may still be after a change that leaves its name alone. -/
theorem admits_of_changes (h : t.UpToDate dirs hidden used s none)
    (hchange : t.Changes t' dirs' hidden' used) (hhidden : hidden ⊆ hidden')
    (hadmits : t.Admits hidden used s key d) {node' : Node} (hnode : t.nodes[d]? = some node)
    (hnode' : t'.nodes[d]? = some node') (hname : node'.name = node.name)
    (hparent : node'.parent = node.parent) : t'.Admits hidden' used s key d := by
  have h' := h.change hchange hhidden
  refine ⟨hadmits.mount_eq.trans hchange.mount_eq.symm, hadmits.inode_ne,
    hadmits.handed.imp_left fun hrange => ⟨hrange.1, hrange.2.trans_le hchange.handsOut.le⟩,
    ⟨node', hnode'⟩, fun e he hinode => ?_, fun hstored => ?_⟩
  · have hlive : t'.accessor.inodeOf e ≠ 0 := hinode.trans_ne hadmits.inode_ne
    obtain ⟨other, hother, hother'⟩ := exists_node hlive
    rcases hchange.keeps e other hother (hother'.trans_ne hlive) he with hold | ⟨-, hnew⟩
    · exact hadmits.own e (fun hmem => he (hhidden hmem))
        ((inodeOf_of hold).trans (hother'.trans hinode))
    · rcases hadmits.handed with hrange | hused
      · exact absurd (hnew.trans_eq (hother'.trans hinode)) (Nat.not_le.2 hrange.2)
      · exact absurd (hinode ▸ h'.sound.inodeOf_mem hlive) (h'.apart _ hused).2
  · obtain ⟨hfragment, hdir⟩ := hchange.fragment_eq h.sound hnode hnode' hname hparent
    obtain ⟨hstored, hparent⟩ := hadmits.stored hstored
    exact ⟨hfragment ▸ hstored, hdir ▸ hparent⟩

/-! ### Following what is stored -/

/-- What is stored of a directory leads along its path. -/
theorem follows_dir (h : t.UpToDate dirs hidden used s none) (hd : d ∈ dirs)
    (hchain : t.listing.Leads d chain) (hstored : (s.table.peek? (t.locate d)).isSome) :
    Follows s.table (t.locate d) (chain.map t.listing.name) := by
  have hlive : d ∈ (h.sound.fixed hidden h.shown).entries :=
    ⟨h.sound.inodeOf_ne_zero hd, h.shown d hd⟩
  have hnames : (chain.map fun e => ((h.sound.fixed hidden h.shown).fragment t.mount e).name) =
      chain.map t.listing.name := by
    refine List.map_congr_left fun e he => ?_
    obtain ⟨node, hnode, -⟩ := exists_node (FixedTree.mem_of_leads hlive hchain he).1
    rw [h.sound.fragment_fixed h.shown hnode, h.sound.name_fragment hnode]
  rw [← hnames]
  exact FixedTree.follows_chain h.linked hchain hlive hstored fun e _ hmarked =>
    h.whole _ hmarked.1

/-- What was stored of an entry leads along the path that it had then, as long as the directories
above it are as they were. -/
theorem follows (h : t.UpToDate dirs hidden used s none) {t₀ : Tree} {dirs₀ : Finset Handle}
    (h₀ : t₀.Sound dirs₀) (hsame : ∀ p ∈ dirs₀, p ≠ d → p ∈ dirs ∧ t.nodes[p]? = t₀.nodes[p]?)
    (hmount : t.mount = t₀.mount) (hnode : t₀.nodes[d]? = some node)
    (hstored : t₀.Describes s key d) :
    ∃ names, t₀.namesToRoot? d (t₀.size + 1) = some names ∧
      Follows s.table key (names ++ [[Bytes.slash]]) := by
  obtain ⟨chain, names, hchain, hnames, heq⟩ := h₀.exists_path hnode
  refine ⟨names, hnames, heq ▸ ?_⟩
  have hnodup := hchain.nodup
  cases hchain with
  | boundary hboundary =>
    have hroot := (h₀.isBoundary_iff hnode).1 hboundary
    rw [List.map_singleton, ← h₀.name_fragment hnode]
    exact .last hstored.stored (if_pos hroot)
  | @step _ above hboundary habove =>
    have hroot := mt (h₀.isBoundary_iff hnode).2 hboundary
    have hparent : (t₀.fragment d).parent = t₀.locate (t₀.accessor.parentOf d) := if_neg hroot
    have hmem : t₀.accessor.parentOf d ∈ dirs₀ :=
      parentOf_of hnode ▸ h₀.parent_mem d node hnode
    -- the directories above are as they were
    have habove_same : ∀ e ∈ above, e ∈ dirs ∧ t.nodes[e]? = t₀.nodes[e]? := fun e he =>
      hsame e (h₀.mem_of_leads hmem habove he) fun heq => (List.nodup_cons.1 hnodup).1 (heq ▸ he)
    obtain ⟨hmem', hnodes⟩ := habove_same (t₀.accessor.parentOf d) habove.head_mem
    have hlocate : t₀.locate (t₀.accessor.parentOf d) = t.locate (t₀.accessor.parentOf d) := by
      rw [locate, locate, inodeOf_congr hnodes, hmount]
    obtain ⟨habove', hnames⟩ := leads_of_same habove fun e he => (habove_same e he).2
    rw [List.map_cons, ← h₀.name_fragment hnode, ← hnames]
    refine .link hstored.stored (fun hnone => ?_) ?_
    · exact h₀.inodeOf_ne_zero hmem (congrArg Location.inode (hparent.symm.trans hnone))
    · have hdir := hstored.parent_stored hroot
      rw [hlocate] at hdir hparent
      rw [hparent]
      exact h.follows_dir hmem' habove' hdir

/-! ### Walks that may be left out -/

/-- A location without an inode is not awaited. -/
theorem of_noInode (h : t.UpToDate dirs hidden used s (some key)) (hkey : key.inode = 0) :
    t.UpToDate dirs hidden used s none := by
  refine { h with linked := ?_ }
  refine (h.sound.linked_iff h.shown (fun _ => h.mount_eq) h.whole).2 fun d f hlive hd hf => ?_
  obtain ⟨hfragment, hparent⟩ := h.stored hlive hd hf
  refine ⟨hfragment, or_iff_not_imp_left.2 fun hroot => ?_⟩
  obtain ⟨node, hnode, -⟩ := exists_node hlive
  have hdir : t.accessor.inodeOf (t.accessor.parentOf d) ≠ 0 :=
    h.sound.inodeOf_ne_zero (parentOf_of hnode ▸ h.sound.parent_mem d node hnode)
  refine Or.inl ((hparent.resolve_left hroot).resolve_right fun hawaited => hdir ?_)
  rw [← hkey, Option.some.inj hawaited]
  rfl

/-- A walk from an entry under a key that admits it, or that has no inode: then nothing is
stored. -/
theorem resolve_or_skip (h : t.UpToDate dirs hidden used s (some key))
    (hadmits : key.inode ≠ 0 → t.Admits hidden used s key d)
    (hkept : (s.resolve (.still t.accessor) d key).2.table.evictions ≤ s.table.evictions)
    (hwhole : (s.resolve (.still t.accessor) d key).1 = false) :
    t.UpToDate dirs hidden used (s.resolve (.still t.accessor) d key).2 none ∧
      (key.inode ≠ 0 → t.Describes (s.resolve (.still t.accessor) d key).2 key d) ∧
      ∀ k, k ≠ key → k.inode ∈ used →
        (s.resolve (.still t.accessor) d key).2.table.peek? k = s.table.peek? k := by
  by_cases hkey : key.inode = 0
  · have hresolve : s.resolve (.still t.accessor) d key = (false, s) :=
      if_pos (by simp [hkey, Location.hasNoInode])
    rw [hresolve]
    exact ⟨h.of_noInode hkey, fun hne => absurd hkey hne, fun _ _ _ => rfl⟩
  · obtain ⟨hresult, hdescribes, hsame⟩ := h.resolve (hadmits hkey) hkept hwhole
    exact ⟨hresult, fun _ => hdescribes, hsame⟩

end UpToDate

/-- Following the fragments from a key gives the path of an entry. A key without an inode leads
nowhere. -/
def Tells (t : Tree) (table : Table Location Fragment) (key : Location) (d : Handle) : Prop :=
  if key.inode = 0 then table.peek? key = none
  else ∃ names, t.namesToRoot? d (t.size + 1) = some names ∧
    Follows table key (names ++ [[Bytes.slash]])

/-- An entry of the root has a path of one name. -/
theorem Tells.follows_in_root {table : Table Location Fragment} (h : t.Tells table key d)
    (hnode : t.nodes[d]? = some node) (hparent : node.parent = root) (hd : d ≠ root)
    (hname : node.name ≠ []) (hkey : key.inode ≠ 0) :
    Follows table key [node.name, [Bytes.slash]] := by
  rw [Tells, if_neg hkey] at h
  obtain ⟨names, hnames, hfollows⟩ := h
  rw [namesToRoot?_of_node hnode hd hname (hparent.trans_ne hd.symm), hparent,
    namesToRoot?_root] at hnames
  obtain rfl := Option.some.inj hnames
  exact hfollows

/-- What was stored of an entry tells the path that it had then. -/
theorem UpToDate.tells (h : t.UpToDate dirs hidden used s none) {t₀ : Tree}
    {dirs₀ : Finset Handle} (h₀ : t₀.Sound dirs₀)
    (hsame : ∀ p ∈ dirs₀, p ≠ d → p ∈ dirs ∧ t.nodes[p]? = t₀.nodes[p]?)
    (hmount : t.mount = t₀.mount)
    (hdescribes : key.inode ≠ 0 → (∃ node, t₀.nodes[d]? = some node) ∧ t₀.Describes s key d) :
    t₀.Tells s.table key d := by
  unfold Tells
  split
  · next hkey => exact h.peek?_eq_none hkey
  · next hkey =>
    obtain ⟨⟨node, hnode⟩, hstored⟩ := hdescribes hkey
    exact h.follows h₀ hsame hmount hnode hstored

/-- What is stored of a live entry tells its path. -/
theorem UpToDate.tells_stored (h : t.UpToDate dirs ∅ used s none)
    (hlive : t.accessor.inodeOf d ≠ 0) (hstored : (s.table.peek? (t.locate d)).isSome) :
    t.Tells s.table (t.locate d) d := by
  have hadmits := h.admits_own hlive id
  exact h.tells h.sound (fun p hp _ => ⟨hp, rfl⟩) rfl fun _ =>
    ⟨hadmits.exists_node, hadmits.stored hstored⟩

end Tree

end FsTrace
