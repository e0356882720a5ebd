import FsTrace.Proofs.FixedTree
import FsTrace.Tree

/-!
# Sound trees

What stays true of a tree in memory while entries are added, brought to life, removed and forgotten,
and files are moved by a second name.

* `Tree.GoodName`: a name that is stored as it is;
* `Tree.Sound`: every entry but the root is in a live directory that was there before it, and no two
  entries share an inode;
* `Tree.Puts`: an entry is added or changed, and `Tree.Sound.put`: what it takes to stay sound then;
* one lemma for each change: `Sound.makeFile`, `Sound.makeDir`, `Sound.makeNegative`,
  `Sound.instantiate`, `Sound.unlink`, `Sound.removeDir`, `Sound.move`, `Sound.forget`.
-/

namespace FsTrace

namespace Tree

/-- A name that is stored as it is and is not taken for that of a root. -/
structure GoodName (name : Bytes) : Prop where
  ne_nil : name ≠ []
  nulFree : 0 ∉ name
  length_lt : name.length < nameSize
  head_ne : name.head? ≠ some Bytes.slash

/-! ### Single changes -/

/-- A tree in which one entry was added or changed. -/
structure Puts (t : Tree) (d : Handle) (node : Node) (t' : Tree) : Prop where
  nodes_eq : ∀ e : Handle, t'.nodes[e]? = if e = d then some node else t.nodes[e]?
  nextHandle_le : t.nextHandle ≤ t'.nextHandle
  nextInode_le : t.nextInode ≤ t'.nextInode
  mount_eq : t'.mount = t.mount

variable {t t' : Tree} {d e dir source target : Handle} {name : Bytes} {node other : Node}
  {inode : Inode}

theorem inodeOf_of (hnode : t.nodes[d]? = some node) : t.accessor.inodeOf d = node.inode := by
  simp [Accessor.inodeOf, accessor, hnode]

theorem inodeOf_of_none (hnode : t.nodes[d]? = none) : t.accessor.inodeOf d = 0 := by
  simp [Accessor.inodeOf, accessor, hnode]

theorem exists_node (h : t.accessor.inodeOf d ≠ 0) :
    ∃ node, t.nodes[d]? = some node ∧ node.inode = t.accessor.inodeOf d := by
  cases hnode : t.nodes[d]? with
  | none => exact absurd (inodeOf_of_none hnode) h
  | some node => exact ⟨node, rfl, (inodeOf_of hnode).symm⟩

theorem getElem?_insert_node (nodes : Std.HashMap Handle Node) (e : Handle) :
    (nodes.insert d node)[e]? = if e = d then some node else nodes[e]? := by
  rw [Std.HashMap.getElem?_insert]
  by_cases h : e = d
  · simp [h]
  · simp [h, Ne.symm h]

theorem dropChild_eq (t : Tree) (dir : Handle) (name : Bytes) (d : Handle) :
    ∃ children, t.dropChild dir name d = { t with children } := by
  unfold dropChild
  split <;> exact ⟨_, rfl⟩

theorem puts_makeFile (t : Tree) (dir : Handle) (name : Bytes) :
    t.Puts ⟨t.nextHandle⟩ ⟨name, dir, t.nextInode⟩ (t.makeFile dir name).2 :=
  ⟨getElem?_insert_node _, Nat.le_succ _, Nat.le_succ _, rfl⟩

theorem makeDir_of_none (h : t.lookup? dir name = none) :
    t.makeDir dir name = t.makeFile dir name := by
  unfold makeDir
  rw [h]
  rfl

theorem puts_makeNegative (t : Tree) (dir : Handle) (name : Bytes) :
    t.Puts ⟨t.nextHandle⟩ ⟨name, dir, 0⟩ (t.makeNegative dir name).2 :=
  ⟨getElem?_insert_node _, Nat.le_succ _, le_rfl, rfl⟩

theorem puts_instantiate (hnode : t.nodes[d]? = some node) :
    t.Puts d { node with inode := t.nextInode } (t.instantiate d).2 := by
  have hresult : t.instantiate d =
      (some t.nextInode, { t with nextInode := t.nextInode + 1 }.setInode d node t.nextInode) := by
    simp [instantiate, drawInode, hnode]
  rw [hresult]
  exact ⟨getElem?_insert_node _, le_rfl, Nat.le_succ _, rfl⟩

theorem nextInode_instantiate (hnode : t.nodes[d]? = some node) :
    (t.instantiate d).2.nextInode = t.nextInode + 1 := by
  simp [instantiate, drawInode, hnode, setInode]

theorem unlink_eq (hnode : t.nodes[d]? = some node) :
    ∃ children,
      t.unlink d = { t with nodes := t.nodes.insert d { node with inode := 0 }, children } := by
  obtain ⟨children, hdrop⟩ := dropChild_eq (t.setInode d node 0) node.parent node.name d
  have hresult : t.unlink d = { t.setInode d node 0 with children } := by
    simp [unlink, hnode, hdrop]
  exact ⟨children, hresult⟩

theorem puts_unlink (hnode : t.nodes[d]? = some node) :
    t.Puts d { node with inode := 0 } (t.unlink d) := by
  obtain ⟨children, hresult⟩ := unlink_eq hnode
  rw [hresult]
  exact ⟨getElem?_insert_node _, le_rfl, le_rfl, rfl⟩

theorem link_eq (hnode : t.nodes[source]? = some node) (hother : t.nodes[target]? = some other) :
    (t.link source target).2 =
      { t with nodes := t.nodes.insert target { other with inode := node.inode } } := by
  simp [link, hnode, hother, setInode]

theorem fields_unlink (t : Tree) (d : Handle) :
    (t.unlink d).nextHandle = t.nextHandle ∧ (t.unlink d).nextInode = t.nextInode ∧
      (t.unlink d).mount = t.mount := by
  cases hnode : t.nodes[d]? with
  | none =>
    have hresult : t.unlink d = t := by simp [unlink, hnode]
    rw [hresult]
    exact ⟨rfl, rfl, rfl⟩
  | some node =>
    obtain ⟨children, hresult⟩ := unlink_eq hnode
    rw [hresult]
    exact ⟨rfl, rfl, rfl⟩

theorem fields_link (t : Tree) (source target : Handle) :
    (t.link source target).2.nextHandle = t.nextHandle ∧
      (t.link source target).2.nextInode = t.nextInode ∧
      (t.link source target).2.mount = t.mount := by
  unfold link
  split <;> exact ⟨rfl, rfl, rfl⟩

theorem puts_link (hnode : t.nodes[source]? = some node) (hother : t.nodes[target]? = some other) :
    t.Puts target { other with inode := node.inode } (t.link source target).2 := by
  rw [link_eq hnode hother]
  exact ⟨getElem?_insert_node _, le_rfl, le_rfl, rfl⟩

theorem forget_eq (hnode : t.nodes[d]? = some node) :
    ∃ children, t.forget d = { t with nodes := t.nodes.erase d, children } := by
  obtain ⟨children, hdrop⟩ :=
    dropChild_eq { t with nodes := t.nodes.erase d } node.parent node.name d
  exact ⟨children, by simp [forget, hnode, hdrop]⟩

theorem nodes_forget (t : Tree) (d e : Handle) :
    (t.forget d).nodes[e]? = if e = d then none else t.nodes[e]? := by
  cases hnode : t.nodes[d]? with
  | none =>
    have hresult : t.forget d = t := by simp [forget, hnode]
    rw [hresult]
    by_cases h : e = d
    · rw [if_pos h, h, hnode]
    · rw [if_neg h]
  | some node =>
    obtain ⟨children, hresult⟩ := forget_eq hnode
    rw [hresult]
    show (t.nodes.erase d)[e]? = _
    rw [Std.HashMap.getElem?_erase]
    by_cases h : e = d
    · simp [h]
    · simp [h, Ne.symm h]

theorem fields_forget (t : Tree) (d : Handle) :
    (t.forget d).nextHandle = t.nextHandle ∧ (t.forget d).nextInode = t.nextInode ∧
      (t.forget d).mount = t.mount := by
  cases hnode : t.nodes[d]? with
  | none =>
    have hresult : t.forget d = t := by simp [forget, hnode]
    rw [hresult]
    exact ⟨rfl, rfl, rfl⟩
  | some node =>
    obtain ⟨children, hresult⟩ := forget_eq hnode
    rw [hresult]
    exact ⟨rfl, rfl, rfl⟩

/-! ### Soundness -/

/-- A tree with its live directories. All inodes that are not `0` were handed out, and no two
entries share one. -/
structure Sound (t : Tree) (dirs : Finset Handle) : Prop where
  root_eq : t.nodes[root]? = some ⟨[Bytes.slash], root, rootInode⟩
  root_mem : root ∈ dirs
  exists_of_mem : ∀ d ∈ dirs, ∃ node, t.nodes[d]? = some node ∧ node.inode ≠ 0
  goodName : ∀ (d : Handle) (node : Node), t.nodes[d]? = some node → d ≠ root → GoodName node.name
  parent_mem : ∀ (d : Handle) (node : Node), t.nodes[d]? = some node → node.parent ∈ dirs
  parent_lt : ∀ (d : Handle) (node : Node), t.nodes[d]? = some node → d ≠ root →
    node.parent.id < d.id
  id_lt : ∀ (d : Handle) (node : Node), t.nodes[d]? = some node → d.id < t.nextHandle
  inode_mem : ∀ (d : Handle) (node : Node), t.nodes[d]? = some node → node.inode ≠ 0 →
    rootInode ≤ node.inode ∧ node.inode < t.nextInode
  inode_inj : ∀ (d e : Handle) (node node' : Node), t.nodes[d]? = some node →
    t.nodes[e]? = some node' → node.inode ≠ 0 → node.inode = node'.inode → d = e

namespace Sound

variable {dirs dirs' : Finset Handle}

theorem new (mount : MountId) (device : DeviceId) : (Tree.new mount device).Sound {root} := by
  have hnodes : ∀ (d : Handle) (node : Node), (Tree.new mount device).nodes[d]? = some node →
      d = root ∧ node = ⟨[Bytes.slash], root, rootInode⟩ := by
    intro d node hnode
    rw [Tree.new, Std.HashMap.getElem?_insert] at hnode
    split at hnode
    · next h => exact ⟨(beq_iff_eq.1 h).symm, (Option.some.inj hnode).symm⟩
    · simp at hnode
  have hroot : (Tree.new mount device).nodes[root]? = some ⟨[Bytes.slash], root, rootInode⟩ := by
    rw [Tree.new, Std.HashMap.getElem?_insert_self]
  refine ⟨hroot, Finset.mem_singleton_self _, ?_, ?_, ?_, ?_, ?_, ?_, ?_⟩
  · intro d hd
    rw [Finset.mem_singleton.1 hd]
    exact ⟨_, hroot, by decide⟩
  · intro d node hnode hd
    exact absurd (hnodes d node hnode).1 hd
  · intro d node hnode
    rw [(hnodes d node hnode).2]
    exact Finset.mem_singleton_self _
  · intro d node hnode hd
    exact absurd (hnodes d node hnode).1 hd
  · intro d node hnode
    rw [(hnodes d node hnode).1]
    exact Nat.lt_succ_self _
  · intro d node hnode _
    rw [(hnodes d node hnode).2]
    exact ⟨le_rfl, Nat.lt_succ_self _⟩
  · intro d e node node' hnode hnode' _ _
    rw [(hnodes d node hnode).1, (hnodes e node' hnode').1]

theorem ne_root_of_not_mem (h : t.Sound dirs) (hd : d ∉ dirs) : d ≠ root :=
  fun hroot => hd (hroot ▸ h.root_mem)

theorem inodeOf_ne_zero (h : t.Sound dirs) (hd : d ∈ dirs) : t.accessor.inodeOf d ≠ 0 := by
  obtain ⟨node, hnode, hinode⟩ := h.exists_of_mem d hd
  rwa [inodeOf_of hnode]

/-! ### Changes -/

/-- One entry is set, and the live directories change at most by it. A directory that dies has no
entries in it. -/
theorem put (h : t.Sound dirs) (hput : t.Puts d node t') (hd : d ≠ root)
    (hname : GoodName node.name) (hparent : node.parent ∈ dirs) (hlt : node.parent.id < d.id)
    (hid : d.id < t'.nextHandle)
    (hinode : node.inode ≠ 0 → rootInode ≤ node.inode ∧ node.inode < t'.nextInode ∧
      ∀ (e : Handle) (node' : Node), t.nodes[e]? = some node' → e ≠ d → node.inode ≠ node'.inode)
    (hdirs : ∀ e, e ≠ d → (e ∈ dirs' ↔ e ∈ dirs)) (hlive : d ∈ dirs' → node.inode ≠ 0)
    (hempty : d ∉ dirs' →
      ∀ (e : Handle) (node' : Node), t.nodes[e]? = some node' → e ≠ d → node'.parent ≠ d) :
    t'.Sound dirs' := by
  have hself : ∀ node', t'.nodes[d]? = some node' → node' = node := by
    intro node' hnode'
    rw [hput.nodes_eq, if_pos rfl] at hnode'
    exact (Option.some.inj hnode').symm
  have hother : ∀ e, e ≠ d → t'.nodes[e]? = t.nodes[e]? := fun e he => by
    rw [hput.nodes_eq, if_neg he]
  refine ⟨?_, ?_, ?_, ?_, ?_, ?_, ?_, ?_, ?_⟩
  · rw [hother _ hd.symm]
    exact h.root_eq
  · exact (hdirs _ hd.symm).2 h.root_mem
  · intro e he
    by_cases hed : e = d
    · subst hed
      exact ⟨node, by rw [hput.nodes_eq, if_pos rfl], hlive he⟩
    · rw [hother e hed]
      exact h.exists_of_mem e ((hdirs e hed).1 he)
  · intro e node' hnode' he
    by_cases hed : e = d
    · subst hed
      rwa [hself node' hnode']
    · exact h.goodName e node' (hother e hed ▸ hnode') he
  · intro e node' hnode'
    by_cases hed : e = d
    · subst hed
      rw [hself node' hnode']
      exact (hdirs _ fun heq => by rw [heq] at hlt; exact lt_irrefl _ hlt).2 hparent
    · rw [hother e hed] at hnode'
      by_cases hpd : node'.parent = d
      · by_contra hdead
        exact hempty (hpd ▸ hdead) e node' hnode' hed hpd
      · exact (hdirs _ hpd).2 (h.parent_mem e node' hnode')
  · intro e node' hnode' he
    by_cases hed : e = d
    · subst hed
      rwa [hself node' hnode']
    · exact h.parent_lt e node' (hother e hed ▸ hnode') he
  · intro e node' hnode'
    by_cases hed : e = d
    · rwa [hed]
    · exact (h.id_lt e node' (hother e hed ▸ hnode')).trans_le hput.nextHandle_le
  · intro e node' hnode' hne
    by_cases hed : e = d
    · subst hed
      rw [hself node' hnode'] at hne ⊢
      exact ⟨(hinode hne).1, (hinode hne).2.1⟩
    · obtain ⟨hge, hlt'⟩ := h.inode_mem e node' (hother e hed ▸ hnode') hne
      exact ⟨hge, hlt'.trans_le hput.nextInode_le⟩
  · intro e f node₁ node₂ hnode₁ hnode₂ hne heq
    by_cases hed : e = d
    · subst hed
      by_contra hef
      rw [hself node₁ hnode₁] at hne heq
      exact (hinode hne).2.2 f node₂ (hother f (Ne.symm hef) ▸ hnode₂) (Ne.symm hef) heq
    · by_cases hfd : f = d
      · subst hfd
        rw [hself node₂ hnode₂] at heq
        exact absurd heq.symm ((hinode (heq ▸ hne)).2.2 e node₁ (hother e hed ▸ hnode₁) hed)
      · exact h.inode_inj e f node₁ node₂ (hother e hed ▸ hnode₁) (hother f hfd ▸ hnode₂) hne heq

/-- A new entry in a live directory, which may become one itself. -/
theorem create (h : t.Sound dirs) (hput : t.Puts ⟨t.nextHandle⟩ ⟨name, dir, inode⟩ t')
    (hdir : dir ∈ dirs) (hname : GoodName name) (hhandle : t'.nextHandle = t.nextHandle + 1)
    (hinode : inode ≠ 0 → inode = t.nextInode ∧ t'.nextInode = t.nextInode + 1)
    (hdirs : dirs' = dirs ∨ inode ≠ 0 ∧ dirs' = insert ⟨t.nextHandle⟩ dirs) : t'.Sound dirs' := by
  have hfresh : ∀ (e : Handle) (node : Node), t.nodes[e]? = some node → e ≠ ⟨t.nextHandle⟩ := by
    rintro e node hnode rfl
    exact lt_irrefl _ (h.id_lt _ node hnode)
  have hnew : (⟨t.nextHandle⟩ : Handle) ∉ dirs := by
    intro hmem
    obtain ⟨node, hnode, -⟩ := h.exists_of_mem _ hmem
    exact hfresh _ node hnode rfl
  obtain ⟨dirNode, hdirNode, -⟩ := h.exists_of_mem dir hdir
  refine h.put hput (hfresh _ _ h.root_eq).symm hname hdir (h.id_lt _ _ hdirNode)
    (hhandle ▸ Nat.lt_succ_self _) (fun hne => ?_) (fun e he => ?_) (fun hmem => ?_)
    fun _ e node hnode _ hparent => hnew (hparent ▸ h.parent_mem e node hnode)
  · obtain ⟨rfl, hnext⟩ := hinode hne
    refine ⟨(h.inode_mem _ _ h.root_eq (by decide)).2.le, hnext ▸ Nat.lt_succ_self _, ?_⟩
    rintro e node hnode - heq
    exact lt_irrefl _ (heq ▸ (h.inode_mem e node hnode (heq ▸ hne)).2)
  · rcases hdirs with rfl | ⟨-, rfl⟩
    · rfl
    · rw [Finset.mem_insert]
      exact or_iff_right he
  · rcases hdirs with rfl | ⟨hne, -⟩
    · exact absurd hmem hnew
    · exact hne

theorem nextInode_ne_zero (h : t.Sound dirs) : t.nextInode ≠ 0 := by
  have hlt := (h.inode_mem _ _ h.root_eq (by decide)).2
  exact (Nat.zero_lt_of_lt hlt).ne'

theorem makeFile (h : t.Sound dirs) (hdir : dir ∈ dirs) (hname : GoodName name) :
    (t.makeFile dir name).2.Sound dirs :=
  h.create (puts_makeFile t dir name) hdir hname rfl (fun _ => ⟨rfl, rfl⟩) (Or.inl rfl)

theorem makeDir (h : t.Sound dirs) (hdir : dir ∈ dirs) (hname : GoodName name)
    (hnone : t.lookup? dir name = none) :
    (t.makeDir dir name).2.Sound (insert (t.makeDir dir name).1 dirs) := by
  rw [makeDir_of_none hnone]
  exact h.create (puts_makeFile t dir name) hdir hname rfl (fun _ => ⟨rfl, rfl⟩)
    (Or.inr ⟨h.nextInode_ne_zero, rfl⟩)

theorem makeNegative (h : t.Sound dirs) (hdir : dir ∈ dirs) (hname : GoodName name) :
    (t.makeNegative dir name).2.Sound dirs :=
  h.create (puts_makeNegative t dir name) hdir hname rfl (fun hne => absurd rfl hne) (Or.inl rfl)

/-- The inode of an entry changes, and with it perhaps whether the entry is a live directory. -/
theorem reassign (h : t.Sound dirs) (hnode : t.nodes[d]? = some node)
    (hput : t.Puts d { node with inode } t') (hd : d ≠ root)
    (hinode : inode ≠ 0 → rootInode ≤ inode ∧ inode < t'.nextInode ∧
      ∀ (e : Handle) (node' : Node), t.nodes[e]? = some node' → e ≠ d → inode ≠ node'.inode)
    (hdirs : ∀ e, e ≠ d → (e ∈ dirs' ↔ e ∈ dirs)) (hlive : d ∈ dirs' → inode ≠ 0)
    (hempty : d ∉ dirs' →
      ∀ (e : Handle) (node' : Node), t.nodes[e]? = some node' → e ≠ d → node'.parent ≠ d) :
    t'.Sound dirs' :=
  h.put hput hd (h.goodName d node hnode hd) (h.parent_mem d node hnode)
    (h.parent_lt d node hnode hd) ((h.id_lt d node hnode).trans_le hput.nextHandle_le) hinode hdirs
    hlive hempty

/-- An entry without an inode becomes a live directory. -/
theorem instantiate (h : t.Sound dirs) (hnode : t.nodes[d]? = some node) (hzero : node.inode = 0) :
    (t.instantiate d).2.Sound (insert d dirs) := by
  have hnext := nextInode_instantiate hnode
  have hd : d ≠ root := by
    rintro rfl
    obtain rfl := Option.some.inj (hnode.symm.trans h.root_eq)
    exact absurd hzero (by decide)
  refine h.reassign hnode (puts_instantiate hnode) hd (fun _ => ?_) (fun e he => ?_)
    (fun _ => h.nextInode_ne_zero) fun hnot => absurd (Finset.mem_insert_self d dirs) hnot
  · refine ⟨(h.inode_mem _ _ h.root_eq (by decide)).2.le, hnext ▸ Nat.lt_succ_self _, ?_⟩
    rintro e node' hnode' - heq
    exact lt_irrefl _ (heq ▸ (h.inode_mem e node' hnode' (heq ▸ h.nextInode_ne_zero)).2)
  · rw [Finset.mem_insert]
    exact or_iff_right he

theorem unlink (h : t.Sound dirs) (hd : d ∉ dirs) : (t.unlink d).Sound dirs := by
  cases hnode : t.nodes[d]? with
  | none =>
    have hresult : t.unlink d = t := by simp [Tree.unlink, hnode]
    rwa [hresult]
  | some node =>
    exact h.reassign hnode (puts_unlink hnode) (h.ne_root_of_not_mem hd) (fun hne => absurd rfl hne)
      (fun _ _ => Iff.rfl) (fun hmem => absurd hmem hd)
      fun _ e node' hnode' _ hparent => hd (hparent ▸ h.parent_mem e node' hnode')

/-- An empty directory is removed. -/
theorem removeDir (h : t.Sound dirs) (hmem : d ∈ dirs) (hd : d ≠ root)
    (hempty : ∀ (e : Handle) (node' : Node), t.nodes[e]? = some node' → e ≠ d → node'.parent ≠ d) :
    (t.unlink d).Sound (dirs.erase d) := by
  obtain ⟨node, hnode, -⟩ := h.exists_of_mem d hmem
  refine h.reassign hnode (puts_unlink hnode) hd (fun hne => absurd rfl hne) (fun e he => ?_)
    (fun hmem => absurd hmem (Finset.notMem_erase d dirs)) fun _ => hempty
  rw [Finset.mem_erase]
  exact and_iff_right he

/-- A file takes the place of another entry, and leaves its own. -/
theorem move (h : t.Sound dirs) (hsource : t.nodes[source]? = some node)
    (htarget : t.nodes[target]? = some other) (hs : source ∉ dirs) (ht : target ∉ dirs)
    (hlive : node.inode ≠ 0) (hne : target ≠ source) :
    ((t.link source target).2.unlink source).Sound dirs := by
  have hlink := puts_link hsource htarget
  have hunlink := puts_unlink hsource
  have hsource' : (t.link source target).2.nodes[source]? = some node := by
    rw [hlink.nodes_eq, if_neg hne.symm, hsource]
  have htarget' : (t.unlink source).nodes[target]? = some other := by
    rw [hunlink.nodes_eq, if_neg hne, htarget]
  -- as if the source had left its place first
  have hput : (t.unlink source).Puts target { other with inode := node.inode }
      ((t.link source target).2.unlink source) := by
    obtain ⟨hhandle, hnext, hmount⟩ := fields_unlink (t.link source target).2 source
    obtain ⟨hhandle', hnext', hmount'⟩ := fields_link t source target
    refine ⟨fun e => ?_, ?_, ?_, ?_⟩
    · rw [(puts_unlink hsource').nodes_eq, hlink.nodes_eq, hunlink.nodes_eq]
      by_cases he : e = source
      · rw [if_pos he, if_pos he, if_neg (he ▸ hne.symm)]
      · rw [if_neg he, if_neg he]
    · rw [hhandle, hhandle', (fields_unlink t source).1]
    · rw [hnext, hnext', (fields_unlink t source).2.1]
    · rw [hmount, hmount', (fields_unlink t source).2.2]
  obtain ⟨hge, hlt⟩ := h.inode_mem source node hsource hlive
  refine (h.unlink hs).reassign htarget' hput (h.ne_root_of_not_mem ht) (fun _ => ?_)
    (fun _ _ => Iff.rfl) (fun hmem => absurd hmem ht) fun _ e node' hnode' _ hparent =>
      ht (hparent ▸ (h.unlink hs).parent_mem e node' hnode')
  refine ⟨hge, (hlt.trans_le hunlink.nextInode_le).trans_le hput.nextInode_le, ?_⟩
  intro e node' hnode' _ heq
  rw [hunlink.nodes_eq] at hnode'
  split at hnode'
  · obtain rfl := Option.some.inj hnode'
    exact hlive heq
  · next he => exact he (h.inode_inj source e node node' hsource hnode' hlive heq).symm

/-- An entry without an inode is forgotten. -/
theorem forget (h : t.Sound dirs) (hzero : t.accessor.inodeOf d = 0) : (t.forget d).Sound dirs := by
  obtain ⟨hhandle, hnext, -⟩ := fields_forget t d
  have hd : d ∉ dirs := fun hmem => h.inodeOf_ne_zero hmem hzero
  have hother : ∀ e, e ≠ d → (t.forget d).nodes[e]? = t.nodes[e]? := fun e he => by
    rw [nodes_forget, if_neg he]
  have hbefore : ∀ {e : Handle} {node : Node}, (t.forget d).nodes[e]? = some node →
      t.nodes[e]? = some node := by
    intro e node hnode
    rw [nodes_forget] at hnode
    split at hnode
    · cases hnode
    · exact hnode
  refine ⟨?_, h.root_mem, fun e he => ?_, fun e node hnode => h.goodName e node (hbefore hnode),
    fun e node hnode => h.parent_mem e node (hbefore hnode),
    fun e node hnode => h.parent_lt e node (hbefore hnode), fun e node hnode => ?_,
    fun e node hnode => ?_, fun e e' node node' hnode hnode' =>
      h.inode_inj e e' node node' (hbefore hnode) (hbefore hnode')⟩
  · rw [hother root (h.ne_root_of_not_mem hd).symm]
    exact h.root_eq
  · rw [hother e fun heq => hd (heq ▸ he)]
    exact h.exists_of_mem e he
  · rw [hhandle]
    exact h.id_lt e node (hbefore hnode)
  · rw [hnext]
    exact h.inode_mem e node (hbefore hnode)

end Sound

end Tree

end FsTrace
