import FsTrace.Proofs.GrownTrees
import FsTrace.Proofs.WorkerSteps

/-!
# The entries of workers

The workers share one tree. Each removes only entries that it made itself, so that the entry of a
call that is under way is not dropped by another worker, and the grown tree is left alone.

* `Tree.Retains`: entries keep their places, and all but some keep their inodes; what a call does to
  the tree is of this kind, `Effect.retains_apply`;
* `Simulation.held`: the entries that the workers have, those included that are about to be dropped;
* `Simulation.Owned`: these are all different and in directories of the grown tree, whose own
  entries are as they were at the start. Every step keeps this, `Owned.advances`;
* `Simulation.Owned.exists_folder`: what a call is about is in a directory of the grown tree.
-/

namespace FsTrace

namespace Tree

variable {t t' t'' : Tree} {d e : Handle} {node other : Node} {changed changed' : List Handle}

/-! ### Entries that keep their places -/

/-- All entries keep their places, and all but some of them their inodes. -/
structure Retains (t : Tree) (changed : List Handle) (t' : Tree) : Prop where
  nodes_eq : ∀ d ∉ changed, t'.nodes[d]? = t.nodes[d]?
  placed : ∀ (d : Handle) (node : Node), t.nodes[d]? = some node →
    ∃ node', t'.nodes[d]? = some node' ∧ node'.parent = node.parent
  nextHandle_eq : t'.nextHandle = t.nextHandle

theorem Retains.refl (t : Tree) (changed : List Handle) : t.Retains changed t :=
  ⟨fun _ _ => rfl, fun _ node hnode => ⟨node, hnode, rfl⟩, rfl⟩

theorem Retains.trans (h : t.Retains changed t') (h' : t'.Retains changed' t'') :
    t.Retains (changed ++ changed') t'' where
  nodes_eq d hd := by
    rw [List.mem_append, not_or] at hd
    rw [h'.nodes_eq d hd.2, h.nodes_eq d hd.1]
  placed d node hnode := by
    obtain ⟨node', hnode', hparent⟩ := h.placed d node hnode
    obtain ⟨node'', hnode'', hparent'⟩ := h'.placed d node' hnode'
    exact ⟨node'', hnode'', hparent'.trans hparent⟩
  nextHandle_eq := h'.nextHandle_eq.trans h.nextHandle_eq

theorem Puts.retains (hput : t.Puts d other t') (hnode : t.nodes[d]? = some node)
    (hparent : other.parent = node.parent) (hnext : t'.nextHandle = t.nextHandle) :
    t.Retains [d] t' where
  nodes_eq e he := by
    rw [hput.nodes_eq, if_neg (mt List.mem_singleton.2 he)]
  placed e node' hnode' := by
    rw [hput.nodes_eq]
    by_cases he : e = d
    · subst he
      obtain rfl := Option.some.inj (hnode.symm.trans hnode')
      exact ⟨other, if_pos rfl, hparent⟩
    · exact ⟨node', (if_neg he).trans hnode', rfl⟩
  nextHandle_eq := hnext

theorem retains_instantiate (t : Tree) (d : Handle) : t.Retains [d] (t.instantiate d).2 := by
  cases hnode : t.nodes[d]? with
  | none =>
    -- the inode is used up
    rw [instantiate_of_none hnode]
    exact ⟨fun _ _ => rfl, fun _ node hnode => ⟨node, hnode, rfl⟩, rfl⟩
  | some node =>
    refine (puts_instantiate hnode).retains hnode rfl ?_
    simp [instantiate, drawInode, hnode, setInode]

theorem retains_link (t : Tree) (d e : Handle) : t.Retains [e] (t.link d e).2 := by
  cases hnode : t.nodes[d]? with
  | none =>
    rw [link_of_none (Or.inl hnode)]
    exact .refl t [e]
  | some node =>
    cases hother : t.nodes[e]? with
    | none =>
      rw [link_of_none (Or.inr hother)]
      exact .refl t [e]
    | some other => exact (puts_link hnode hother).retains hother rfl (fields_link t d e).1

theorem retains_unlink (t : Tree) (d : Handle) : t.Retains [d] (t.unlink d) := by
  cases hnode : t.nodes[d]? with
  | none =>
    rw [unlink_of_none hnode]
    exact .refl t [d]
  | some node => exact (puts_unlink hnode).retains hnode rfl (fields_unlink t d).1

end Tree

/-- What a call does to the tree keeps all entries in their places. -/
theorem Effect.retains_apply (t : Tree) (effect : Effect) :
    t.Retains effect.changed (effect.apply t) := by
  cases effect with
  | nothing => exact .refl t []
  | instantiate entry => exact t.retains_instantiate entry
  | link existing target => exact t.retains_link existing target
  | move source target => exact (t.retains_link source target).trans (Tree.retains_unlink _ source)
  | unlink entry => exact t.retains_unlink entry

theorem GrownTree.Complete.usable {g : GrownTree} {t : Tree} (h : g.Complete t) : g.Usable :=
  ⟨h.files_ne_nil, h.top_mem⟩

/-- A call that is about to change the tree changes entries of its worker only. -/
def Worker.ChangesOwn (w : Worker) : Prop :=
  ∀ operation, w.phase = .started operation → ∀ d ∈ operation.effect.changed, d ∈ w.held

namespace Simulation

variable {s s' : Simulation} {m : Moment} {emission : Option Emission} {w w' : Worker}
  {others : List Worker} {base : Tree} {d : Handle} {made : List Handle}

/-! ### Entries of workers -/

/-- The entries that the workers have. -/
def held (s : Simulation) : List Handle := s.workers.flatMap Worker.held

theorem Turns.held_perm (h : s.Turns w s' w' others) :
    s.held.Perm (w.held ++ others.flatMap Worker.held) ∧
      s'.held.Perm (w'.held ++ others.flatMap Worker.held) :=
  ⟨h.before.flatMap_right _, h.after.flatMap_right _⟩

/-- An entry is in a directory of the grown tree. -/
def Placed (s : Simulation) (d : Handle) : Prop :=
  ∃ node, s.tree.nodes[d]? = some node ∧ node.parent ∈ s.grown.folders

/-- The entries of the tree that was grown are as they were. Those that the workers have are younger
and all different, and are in directories of the grown tree. A call changes only such an entry. -/
structure Owned (base : Tree) (s : Simulation) : Prop where
  kept : ∀ d : Handle, d.id < base.nextHandle → s.tree.nodes[d]? = base.nodes[d]?
  nextHandle_le : base.nextHandle ≤ s.tree.nextHandle
  nodup : s.held.Nodup
  younger : ∀ d ∈ s.held, base.nextHandle ≤ d.id ∧ d.id < s.tree.nextHandle
  placed : ∀ d ∈ s.held, s.Placed d
  changesOwn : ∀ w ∈ s.workers, w.ChangesOwn

namespace Owned

/-- No worker has an entry of the tree that was grown. -/
theorem notMem_held (h : s.Owned base) (hd : d.id < base.nextHandle) : d ∉ s.held :=
  fun hmem => absurd (hd.trans_le (h.younger d hmem).1) (lt_irrefl _)

/-- A plan may add an entry, which is the worker's own. -/
theorem begins (h : s.Owned base) {plan : Operation × Worker × Tree} {time : UInt64}
    (hidle : w.phase = .idle) (hplans : w.Plans s.tree s.grown plan) (hsame : s.Same s')
    (hturns : s.Turns w s' (plan.2.1.begin time plan.1) others) (htree : s'.tree = plan.2.2) :
    s'.Owned base := by
  obtain ⟨hbefore, hafter⟩ := hturns.held_perm
  have hheld : w.held = w.entries := by rw [Worker.held, hidle]; rfl
  have hchanges : (plan.2.1.begin time plan.1).ChangesOwn := by
    intro operation hphase d hd
    obtain rfl := Phase.started.inj hphase
    exact hplans.changed_subset d hd
  have hchanged := hturns.forall_after h.changesOwn hchanges
  rcases hplans.made with ⟨hmade, hperm⟩ | ⟨folder, hfolder, name, hmade, hperm⟩
  · -- nothing is made, and the worker's entries are only arranged in another way
    have hsameHeld : s'.held.Perm s.held := by
      rw [hheld] at hbefore
      exact (hafter.trans (hperm.append_right _)).trans hbefore.symm
    rw [← htree] at hmade
    refine ⟨?_, ?_, ?_, ?_, ?_, hchanged⟩
    · rw [hmade]
      exact h.kept
    · rw [hmade]
      exact h.nextHandle_le
    · exact hsameHeld.nodup_iff.2 h.nodup
    · intro d hd
      rw [hmade]
      exact h.younger d (hsameHeld.mem_iff.1 hd)
    · intro d hd
      rw [Placed, hmade, hsame.grown_eq]
      exact h.placed d (hsameHeld.mem_iff.1 hd)
  · have hnewHeld : s'.held.Perm (⟨s.tree.nextHandle⟩ :: s.held) := by
      rw [hheld] at hbefore
      exact (hafter.trans (hperm.append_right _)).trans (hbefore.symm.cons _)
    have hnew : (⟨s.tree.nextHandle⟩ : Handle) ∉ s.held := fun hd =>
      lt_irrefl _ (h.younger _ hd).2
    have hput : s.tree.Puts ⟨s.tree.nextHandle⟩ ⟨name, folder, 0⟩ s'.tree := by
      rw [htree, hmade]
      exact Tree.puts_makeNegative _ _ _
    have hnext : s'.tree.nextHandle = s.tree.nextHandle + 1 := by
      rw [htree, hmade]
      rfl
    have hle := h.nextHandle_le
    refine ⟨?_, by omega, ?_, ?_, ?_, hchanged⟩
    · intro d hd
      have hold : d ≠ ⟨s.tree.nextHandle⟩ := by
        rintro rfl
        exact absurd (hd.trans_le hle) (lt_irrefl _)
      rw [hput.nodes_eq, if_neg hold, h.kept d hd]
    · exact hnewHeld.nodup_iff.2 (List.nodup_cons.2 ⟨hnew, h.nodup⟩)
    · intro d hd
      rcases List.mem_cons.1 (hnewHeld.mem_iff.1 hd) with rfl | hd
      · exact ⟨hle, hnext ▸ Nat.lt_succ_self _⟩
      · have hyounger := h.younger d hd
        exact ⟨hyounger.1, by omega⟩
    · intro d hd
      rw [Placed, hput.nodes_eq, hsame.grown_eq]
      rcases List.mem_cons.1 (hnewHeld.mem_iff.1 hd) with rfl | hd
      · exact ⟨_, if_pos rfl, hfolder⟩
      · have hold : d ≠ ⟨s.tree.nextHandle⟩ := fun heq => hnew (heq ▸ hd)
        rw [if_neg hold]
        exact h.placed d hd

/-- What a call changes is its worker's own, and stays in its place. -/
theorem performs (h : s.Owned base) {operation : Operation}
    (hphase : w.phase = .started operation) (hsame : s.Same s')
    (hturns : s.Turns w s' { w with phase := .performed operation } others)
    (htree : s'.tree = operation.effect.apply s.tree) : s'.Owned base := by
  obtain ⟨hbefore, hafter⟩ := hturns.held_perm
  have hheld : { w with phase := .performed operation }.held = w.held := by
    rw [Worker.held, Worker.held, hphase]
    rfl
  have hsameHeld : s'.held.Perm s.held := by
    rw [hheld] at hafter
    exact hafter.trans hbefore.symm
  have hretains : s.tree.Retains operation.effect.changed s'.tree :=
    htree ▸ operation.effect.retains_apply s.tree
  refine ⟨fun d hd => ?_, ?_, hsameHeld.nodup_iff.2 h.nodup, fun d hd => ?_, fun d hd => ?_,
    hturns.forall_after h.changesOwn fun _ hphase' => Phase.noConfusion hphase'⟩
  · have hother : d ∉ operation.effect.changed := by
      intro hchanged
      have hown := h.changesOwn w (hturns.mem_before.2 (Or.inl rfl)) operation hphase d hchanged
      exact h.notMem_held hd (hbefore.mem_iff.2 (List.mem_append_left _ hown))
    rw [hretains.nodes_eq d hother, h.kept d hd]
  · rw [hretains.nextHandle_eq]
    exact h.nextHandle_le
  · rw [hretains.nextHandle_eq]
    exact h.younger d (hsameHeld.mem_iff.1 hd)
  · obtain ⟨node, hnode, hparent⟩ := h.placed d (hsameHeld.mem_iff.1 hd)
    obtain ⟨node', hnode', hparent'⟩ := hretains.placed d node hnode
    rw [Placed, hsame.grown_eq]
    exact ⟨node', hnode', hparent' ▸ hparent⟩

/-- The entry that is dropped is that of its worker, and no other worker has it. -/
theorem completes (h : s.Owned base) {operation : Operation}
    (hphase : w.phase = .performed operation) (hsame : s.Same s')
    (hturns : s.Turns w s' { w with phase := .idle } others)
    (htree : s'.tree = operation.dropped.elim s.tree s.tree.forget) : s'.Owned base := by
  obtain ⟨hbefore, hafter⟩ := hturns.held_perm
  have hheld : w.held = operation.dropped.toList ++ { w with phase := .idle }.held := by
    rw [Worker.held, Worker.held, hphase]
    rfl
  rw [hheld, List.append_assoc] at hbefore
  replace hbefore : s.held.Perm (operation.dropped.toList ++ s'.held) :=
    hbefore.trans (hafter.symm.append_left _)
  have hmem : ∀ d ∈ s'.held, d ∈ s.held := fun d hd =>
    hbefore.mem_iff.2 (List.mem_append_right _ hd)
  obtain ⟨-, hnodup, hdisjoint⟩ := List.nodup_append.1 (hbefore.nodup_iff.1 h.nodup)
  have hnodes : ∀ d : Handle, d ∉ operation.dropped.toList →
      s'.tree.nodes[d]? = s.tree.nodes[d]? := by
    intro d hd
    rw [htree]
    cases hdropped : operation.dropped with
    | none => rfl
    | some entry =>
      have hother : d ≠ entry := by simpa [hdropped] using hd
      exact (Tree.nodes_forget _ _ _).trans (if_neg hother)
  have hnext : s'.tree.nextHandle = s.tree.nextHandle := by
    rw [htree]
    cases operation.dropped with
    | none => rfl
    | some entry => exact (Tree.fields_forget _ _).1
  refine ⟨fun d hd => ?_, hnext ▸ h.nextHandle_le, hnodup, fun d hd => ?_, fun d hd => ?_,
    hturns.forall_after h.changesOwn fun _ hphase' => Phase.noConfusion hphase'⟩
  · have hother : d ∉ operation.dropped.toList := fun hdropped =>
      h.notMem_held hd (hbefore.mem_iff.2 (List.mem_append_left _ hdropped))
    rw [hnodes d hother, h.kept d hd]
  · rw [hnext]
    exact h.younger d (hmem d hd)
  · have hother : d ∉ operation.dropped.toList := fun hdropped => hdisjoint d hdropped d hd rfl
    rw [Placed, hnodes d hother, hsame.grown_eq]
    exact h.placed d (hmem d hd)

theorem advances (h : s.Owned base) (hstep : s.Advances m emission s') : s'.Owned base := by
  cases hstep with
  | rests => exact h
  | begins w plan others hidle hbegun hplans hsame hturns htree hprobe =>
    exact h.begins hidle hplans hsame hturns htree
  | performs w operation others hphase hsame hturns htree hprobe =>
    exact h.performs hphase hsame hturns htree
  | completes w operation others hphase hsame hturns htree hprobe =>
    exact h.completes hphase hsame hturns htree

/-! ### Places -/

/-- What a call is about is in a directory of the grown tree, which is as it was. -/
theorem exists_folder (h : s.Owned base) (hcomplete : s.grown.Complete base)
    (hd : d ∈ s.grown.files ∨ d ∈ s.held) :
    ∃ folder ∈ s.grown.folders, s.tree.accessor.parentInodeOf d = base.accessor.inodeOf folder := by
  have hnumbered := hcomplete.growing.numbered
  obtain ⟨node, hnode, hparent⟩ : s.Placed d := by
    rcases hd with hd | hd
    · obtain ⟨node, hnode, hparent⟩ := hcomplete.parent_of_file d hd
      exact ⟨node, (h.kept d (hnumbered d node hnode)).trans hnode, hparent⟩
    · exact h.placed d hd
  obtain ⟨dir, hdir⟩ := hcomplete.exists_of_folder node.parent hparent
  have hsame := h.kept node.parent (hnumbered _ dir hdir)
  refine ⟨node.parent, hparent, ?_⟩
  rw [Accessor.parentInodeOf, Tree.parentOf_of hnode, Tree.inodeOf_of hdir,
    Tree.inodeOf_of (hsame.trans hdir)]

end Owned

end Simulation

end FsTrace
