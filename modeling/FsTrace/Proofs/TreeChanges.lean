import FsTrace.Proofs.TreeChains

/-!
# Changes of sound trees

What a change of a sound tree leaves as it is, so that what was stored before it stays right.

* `Tree.Keeps`: the live entries that are shown are as before, or they are new;
* `Tree.Changes`: what all changes have in common;
* one lemma for each change: `changes_create`, `changes_forget`, `changes_instantiate`,
  `changes_unlink`, `changes_removeDir`, `changes_move`. Only a move hides an entry: the one that
  the moved file takes the place of, whose inode is the one that the file had elsewhere.
-/

namespace FsTrace

namespace Tree

variable {t t' : Tree} {d e dir source target : Handle} {node other : Node} {hidden : Set Handle}
  {dirs dirs' : Finset Handle} {used : Finset Nat}

/-! ### What changes leave alone -/

/-- Every live entry that is not hidden is as it was before, or it is new, or has come to life. -/
def Keeps (t t' : Tree) (hidden : Set Handle) : Prop :=
  ∀ (d : Handle) (node : Node), t'.nodes[d]? = some node → node.inode ≠ 0 → d ∉ hidden →
    t.nodes[d]? = some node ∨ t.accessor.inodeOf d = 0 ∧ t.nextInode ≤ node.inode

theorem Puts.keeps (hput : t.Puts d node t')
    (hnode : node.inode ≠ 0 → d ∉ hidden → t.accessor.inodeOf d = 0 ∧ t.nextInode ≤ node.inode) :
    t.Keeps t' hidden := by
  intro e node' hnode' hlive hshown
  rw [hput.nodes_eq] at hnode'
  split at hnode'
  · next he =>
    obtain rfl := Option.some.inj hnode'
    subst he
    exact Or.inr (hnode hlive hshown)
  · exact Or.inl hnode'

theorem keeps_forget (t : Tree) (d : Handle) : t.Keeps (t.forget d) hidden := by
  intro e node hnode _ _
  rw [nodes_forget] at hnode
  split at hnode
  · cases hnode
  · exact Or.inl hnode

theorem keeps_move (hsource : t.nodes[source]? = some node)
    (htarget : t.nodes[target]? = some other) (hne : target ≠ source) (hmem : target ∈ hidden) :
    t.Keeps ((t.link source target).2.unlink source) hidden := by
  have hlink := puts_link hsource htarget
  have hsource' : (t.link source target).2.nodes[source]? = some node := by
    rw [hlink.nodes_eq, if_neg hne.symm, hsource]
  intro e node' hnode' hlive hshown
  rw [(puts_unlink hsource').nodes_eq] at hnode'
  split at hnode'
  · obtain rfl := Option.some.inj hnode'
    exact absurd rfl hlive
  · have hne' : e ≠ target := fun heq => hshown (heq ▸ hmem)
    rw [hlink.nodes_eq, if_neg hne'] at hnode'
    exact Or.inl hnode'

/-- At most one inode is handed out, which is no key that was drawn. -/
def HandsOut (t t' : Tree) (used : Finset Nat) : Prop :=
  t'.nextInode = t.nextInode ∨ t'.nextInode = t.nextInode + 1 ∧ t.nextInode ∉ used

theorem HandsOut.le (h : t.HandsOut t' used) : t.nextInode ≤ t'.nextInode := by
  rcases h with h | ⟨h, -⟩
  · exact h.ge
  · exact h ▸ Nat.le_succ _

/-! ### Changes -/

/-- A change of the tree: it stays sound, and leaves every live entry as it is that is not hidden
from now on. -/
structure Changes (t t' : Tree) (dirs' : Finset Handle) (hidden : Set Handle) (used : Finset Nat) :
    Prop where
  sound : t'.Sound dirs'
  shown : ∀ d ∈ dirs', d ∉ hidden
  keeps : t.Keeps t' hidden
  handsOut : t.HandsOut t' used
  nextHandle_le : t.nextHandle ≤ t'.nextHandle
  mount_eq : t'.mount = t.mount

namespace Changes

variable (hchange : t.Changes t' dirs' hidden used) (h : t.Sound dirs)

include hchange h

/-- A directory that stays alive stays as it is. -/
theorem nodes_dir (hd : d ∈ dirs) (hd' : d ∈ dirs') : t'.nodes[d]? = t.nodes[d]? := by
  obtain ⟨node, hnode, hlive⟩ := hchange.sound.exists_of_mem d hd'
  rcases hchange.keeps d node hnode hlive (hchange.shown d hd') with hsame | ⟨hzero, -⟩
  · rw [hnode, hsame]
  · exact absurd hzero (h.inodeOf_ne_zero hd)

/-- An entry that keeps its name and its directory is stored as before. -/
theorem fragment_eq {node' : Node} (hnode : t.nodes[d]? = some node)
    (hnode' : t'.nodes[d]? = some node') (hname : node'.name = node.name)
    (hparent : node'.parent = node.parent) :
    t'.fragment d = t.fragment d ∧
      t'.locate (t'.accessor.parentOf d) = t.locate (t.accessor.parentOf d) := by
  have hmem := h.parent_mem d node hnode
  have hmem' : node.parent ∈ dirs' := hparent ▸ hchange.sound.parent_mem d node' hnode'
  have hlocate : t'.locate node.parent = t.locate node.parent := by
    rw [locate, locate, hchange.mount_eq, inodeOf_congr (hchange.nodes_dir h hmem hmem')]
  rw [fragment_of hnode, fragment_of hnode', parentOf_of hnode, parentOf_of hnode', hname, hparent,
    hlocate]
  exact ⟨rfl, rfl⟩

end Changes

/-! ### One lemma for each change -/

/-- An entry is added, with the next inode or without one. -/
theorem changes_create (h : t.Sound dirs) (hput : t.Puts ⟨t.nextHandle⟩ node t')
    (h' : t'.Sound dirs') (hshown : ∀ e ∈ dirs', e ∉ hidden) (hhands : t.HandsOut t' used)
    (hinode : node.inode ≠ 0 → node.inode = t.nextInode) :
    t.Changes t' dirs' hidden used := by
  have hfresh : t.accessor.inodeOf ⟨t.nextHandle⟩ = 0 := by
    by_contra hlive
    obtain ⟨node', hnode', -⟩ := exists_node hlive
    exact lt_irrefl _ (h.id_lt _ node' hnode')
  exact ⟨h', hshown, hput.keeps fun hlive _ => ⟨hfresh, (hinode hlive).ge⟩, hhands,
    hput.nextHandle_le, hput.mount_eq⟩

theorem changes_forget (h : t.Sound dirs) (hzero : t.accessor.inodeOf d = 0)
    (hshown : ∀ e ∈ dirs, e ∉ hidden) : t.Changes (t.forget d) dirs hidden used := by
  obtain ⟨hhandle, hinode, hmount⟩ := fields_forget t d
  exact ⟨h.forget hzero, hshown, keeps_forget t d, Or.inl hinode, hhandle.ge, hmount⟩

theorem changes_instantiate (h : t.Sound dirs) (hnode : t.nodes[d]? = some node)
    (hzero : node.inode = 0) (hshown : ∀ e ∈ insert d dirs, e ∉ hidden)
    (hfresh : t.nextInode ∉ used) :
    t.Changes (t.instantiate d).2 (insert d dirs) hidden used := by
  have hput := puts_instantiate hnode
  have hinode : (t.instantiate d).2.nextInode = t.nextInode + 1 := nextInode_instantiate hnode
  exact ⟨h.instantiate hnode hzero, hshown,
    hput.keeps fun _ _ => ⟨(inodeOf_of hnode).trans hzero, le_rfl⟩, Or.inr ⟨hinode, hfresh⟩,
    hput.nextHandle_le, hput.mount_eq⟩

/-- An entry loses its inode. -/
theorem changes_of_unlink (hnode : t.nodes[d]? = some node) (h' : (t.unlink d).Sound dirs')
    (hshown : ∀ e ∈ dirs', e ∉ hidden) : t.Changes (t.unlink d) dirs' hidden used := by
  obtain ⟨hhandle, hinode, hmount⟩ := fields_unlink t d
  exact ⟨h', hshown, (puts_unlink hnode).keeps fun hlive => absurd rfl hlive, Or.inl hinode,
    hhandle.ge, hmount⟩

theorem changes_unlink (h : t.Sound dirs) (hnode : t.nodes[d]? = some node) (hd : d ∉ dirs)
    (hshown : ∀ e ∈ dirs, e ∉ hidden) : t.Changes (t.unlink d) dirs hidden used :=
  changes_of_unlink hnode (h.unlink hd) hshown

theorem changes_removeDir (h : t.Sound dirs) (hmem : d ∈ dirs) (hd : d ≠ root)
    (hempty : ∀ (e : Handle) (node : Node), t.nodes[e]? = some node → e ≠ d → node.parent ≠ d)
    (hshown : ∀ e ∈ dirs.erase d, e ∉ hidden) :
    t.Changes (t.unlink d) (dirs.erase d) hidden used := by
  obtain ⟨node, hnode, -⟩ := h.exists_of_mem d hmem
  exact changes_of_unlink hnode (h.removeDir hmem hd hempty) hshown

theorem changes_move (h : t.Sound dirs) (hsource : t.nodes[source]? = some node)
    (htarget : t.nodes[target]? = some other) (hs : source ∉ dirs) (ht : target ∉ dirs)
    (hlive : node.inode ≠ 0) (hne : target ≠ source) (hhidden : target ∈ hidden)
    (hshown : ∀ e ∈ dirs, e ∉ hidden) :
    t.Changes ((t.link source target).2.unlink source) dirs hidden used := by
  obtain ⟨hhandle, hinode, hmount⟩ := fields_unlink (t.link source target).2 source
  obtain ⟨hhandle', hinode', hmount'⟩ := fields_link t source target
  exact ⟨h.move hsource htarget hs ht hlive hne, hshown, keeps_move hsource htarget hne hhidden,
    Or.inl (hinode.trans hinode'), (hhandle.trans hhandle').ge, hmount.trans hmount'⟩

/-! ### Numbers of entries -/

theorem size_new (mount : MountId) (device : DeviceId) : (Tree.new mount device).size = 1 := by
  rw [size, Tree.new, Std.HashMap.size_insert, if_neg Std.HashMap.not_mem_empty,
    Std.HashMap.size_empty]

theorem size_setInode (hnode : t.nodes[d]? = some node) (inode : Inode) :
    (t.setInode d node inode).size = t.size := by
  have hmem : d ∈ t.nodes := Std.HashMap.mem_iff_isSome_getElem?.2 (hnode ▸ rfl)
  exact Std.HashMap.size_insert.trans (if_pos hmem)

theorem size_dropChild (t : Tree) (dir : Handle) (name : Bytes) (d : Handle) :
    (t.dropChild dir name d).size = t.size := by
  obtain ⟨children, hdrop⟩ := dropChild_eq t dir name d
  rw [hdrop]
  rfl

theorem size_instantiate (t : Tree) (d : Handle) : (t.instantiate d).2.size = t.size := by
  unfold instantiate
  simp only [drawInode]
  split
  · next node hnode => exact size_setInode (t := { t with nextInode := t.nextInode + 1 }) hnode _
  · rfl

theorem size_link (t : Tree) (source target : Handle) :
    (t.link source target).2.size = t.size := by
  unfold link
  split
  · next node other hsource htarget => exact size_setInode htarget _
  · rfl

theorem size_unlink (t : Tree) (d : Handle) : (t.unlink d).size = t.size := by
  unfold unlink
  split
  · rfl
  · next node hnode => exact (size_dropChild _ _ _ _).trans (size_setInode hnode 0)

theorem size_forget_le (t : Tree) (d : Handle) : (t.forget d).size ≤ t.size := by
  unfold forget
  split
  · exact le_rfl
  · exact (size_dropChild _ _ _ _).trans_le Std.HashMap.size_erase_le

theorem size_makeDir_le (t : Tree) (dir : Handle) (name : Bytes) :
    (t.makeDir dir name).2.size ≤ t.size + 1 := by
  unfold makeDir
  split
  · exact Nat.le_succ _
  · exact Std.HashMap.size_insert_le

end Tree

end FsTrace
