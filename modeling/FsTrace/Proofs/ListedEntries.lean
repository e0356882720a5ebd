import FsTrace.Proofs.TreeChanges
import Mathlib.Tactic.TFAE

/-!
# What directories list

A tree stores its entries, and apart from them what each directory lists. The two are changed one
after the other by every call, so that they can come to differ.

* `Tree.Edit`, `Tree.edited`: any calls on a tree, one after the other;
* `Tree.Current`: what a directory lists under a name is an entry in that directory, of that name;
* `Tree.Listed`: an entry is listed under the name that it has;
* one lemma for each call: `Current.add`, `Current.rename`, `Current.unlink` and so on. An entry
  that loses its name is the only case with a condition, `current_disconnect_iff`;
* `edited_current_tfae`: what is listed stays current exactly as long as no entry that is listed
  loses its name.
-/

namespace FsTrace

namespace Tree

/-- A call that changes a tree. -/
inductive Edit
  | makeDir (parent : Handle) (name : Bytes)
  | makeDirs (path : Bytes)
  | makeFile (parent : Handle) (name : Bytes)
  | makeNegative (parent : Handle) (name : Bytes)
  | instantiate (d : Handle)
  | link (existing target : Handle)
  | rename (d parent : Handle) (name : Bytes)
  | unlink (d : Handle)
  | forget (d : Handle)
  | disconnect (d : Handle)

/-- The tree after a call. -/
def edit (t : Tree) : Edit → Tree
  | .makeDir parent name => (t.makeDir parent name).2
  | .makeDirs path => (t.makeDirs path).2
  | .makeFile parent name => (t.makeFile parent name).2
  | .makeNegative parent name => (t.makeNegative parent name).2
  | .instantiate d => (t.instantiate d).2
  | .link existing target => (t.link existing target).2
  | .rename d parent name => t.rename d parent name
  | .unlink d => t.unlink d
  | .forget d => t.forget d
  | .disconnect d => t.disconnect d

/-- The tree after some calls. -/
def edited (t : Tree) (edits : List Edit) : Tree := edits.foldl edit t

/-- What a directory lists under a name is an entry that exists, in that directory and of that
name. -/
def Current (t : Tree) : Prop :=
  ∀ (parent : Handle) (name : Bytes) (d : Handle), t.lookup? parent name = some d →
    ∃ node, t.nodes[d]? = some node ∧ node.parent = parent ∧ node.name = name

/-- An entry that has a name, and is what its directory lists under it. -/
def Listed (t : Tree) (d : Handle) : Prop :=
  ∃ node, t.nodes[d]? = some node ∧ node.name ≠ [] ∧ t.lookup? node.parent node.name = some d

/-- The handles of all entries were handed out before. -/
def Numbered (t : Tree) : Prop :=
  ∀ (d : Handle) (node : Node), t.nodes[d]? = some node → d.id < t.nextHandle

variable {t t' : Tree} {d e parent dir : Handle} {name n : Bytes} {node other : Node}
  {inode : Inode}

/-! ### Looking names up -/

theorem lookup?_insert (children : Std.HashMap (Handle × Bytes) Handle) :
    (children.insert (parent, name) d)[(dir, n)]? =
      if dir = parent ∧ n = name then some d else children[(dir, n)]? := by
  rw [Std.HashMap.getElem?_insert]
  by_cases h : dir = parent ∧ n = name
  · simp [h]
  · rw [if_neg h, if_neg]
    intro heq
    obtain ⟨hparent, hname⟩ := Prod.mk.inj (beq_iff_eq.1 heq)
    exact h ⟨hparent.symm, hname.symm⟩

theorem lookup?_add (t : Tree) (parent : Handle) (name : Bytes) (inode : Inode) (dir : Handle)
    (n : Bytes) : (t.add parent name inode).2.lookup? dir n =
      if dir = parent ∧ n = name then some ⟨t.nextHandle⟩ else t.lookup? dir n :=
  lookup?_insert t.children

theorem nodes_add (t : Tree) (parent : Handle) (name : Bytes) (inode : Inode) (e : Handle) :
    (t.add parent name inode).2.nodes[e]? =
      if e = ⟨t.nextHandle⟩ then some ⟨name, parent, inode⟩ else t.nodes[e]? :=
  getElem?_insert_node t.nodes e

/-- What is still listed after a name was taken out was listed before, elsewhere or as another
entry. -/
theorem lookup?_of_dropChild (h : (t.dropChild parent name d).lookup? dir n = some e) :
    t.lookup? dir n = some e ∧ ¬ (dir = parent ∧ n = name ∧ e = d) := by
  unfold dropChild at h
  split at h
  · next hlisted =>
    change (t.children.erase (parent, name))[(dir, n)]? = some e at h
    rw [Std.HashMap.getElem?_erase] at h
    split at h
    · cases h
    · next hkey =>
      refine ⟨h, ?_⟩
      rintro ⟨rfl, rfl, -⟩
      exact hkey (beq_self_eq_true _)
  · next hlisted =>
    refine ⟨h, ?_⟩
    rintro ⟨rfl, rfl, rfl⟩
    exact hlisted h

/-! ### What a call does to one entry -/

/-- A call on an entry that does not exist uses up an inode at most. -/
theorem instantiate_of_none (hnode : t.nodes[d]? = none) : (t.instantiate d).2 = t.drawInode.2 := by
  simp [instantiate, drawInode, hnode]

theorem link_of_none (h : t.nodes[d]? = none ∨ t.nodes[e]? = none) : (t.link d e).2 = t := by
  unfold link
  split
  · next hsource htarget => simp [hsource, htarget] at h
  · rfl

theorem rename_of_none (hnode : t.nodes[d]? = none) : t.rename d parent name = t := by
  simp [rename, hnode]

theorem unlink_of_none (hnode : t.nodes[d]? = none) : t.unlink d = t := by
  simp [unlink, hnode]

theorem forget_of_none (hnode : t.nodes[d]? = none) : t.forget d = t := by
  simp [forget, hnode]

theorem disconnect_of_none (hnode : t.nodes[d]? = none) : t.disconnect d = t := by
  simp [disconnect, hnode]

theorem disconnect_eq (hnode : t.nodes[d]? = some node) :
    t.disconnect d = { t with nodes := t.nodes.insert d { node with name := [] } } := by
  simp [disconnect, hnode]

theorem puts_disconnect (hnode : t.nodes[d]? = some node) :
    t.Puts d { node with name := [] } (t.disconnect d) := by
  rw [disconnect_eq hnode]
  exact ⟨getElem?_insert_node _, le_rfl, le_rfl, rfl⟩

/-- All that moving an entry does: what its new directory listed under its new name is gone. -/
theorem rename_eq (hnode : t.nodes[d]? = some node) (parent : Handle) (name : Bytes) :
    ∃ nodes : Std.HashMap Handle Node,
      t.rename d parent name =
        { t with
          nodes
          children := (t.dropChild node.parent node.name d).children.insert (parent, name) d } ∧
      ∀ e : Handle, nodes[e]? =
        if e = d then some { node with name, parent }
        else if (t.dropChild node.parent node.name d).lookup? parent name = some e then none
        else t.nodes[e]? := by
  have hdrop : { t with nodes := t.nodes.insert d { node with name, parent } }.dropChild node.parent
      node.name d = { t.dropChild node.parent node.name d with
        nodes := t.nodes.insert d { node with name, parent } } := by
    unfold dropChild lookup?
    split <;> rfl
  obtain ⟨children, hchildren⟩ := dropChild_eq t node.parent node.name d
  rw [hchildren] at hdrop ⊢
  unfold rename
  simp only [hnode, hdrop]
  -- an entry that is listed in the new place is replaced, unless it is the moved one
  have hkept (h : ∀ e ≠ d, children[(parent, name)]? ≠ some e) (e : Handle) :
      (t.nodes.insert d { node with name, parent })[e]? =
        if e = d then some { node with name, parent }
        else if children[(parent, name)]? = some e then none else t.nodes[e]? := by
    rw [getElem?_insert_node]
    by_cases he : e = d
    · rw [if_pos he, if_pos he]
    · rw [if_neg he, if_neg he, if_neg (h e he)]
  split
  · next other hother =>
    change children[(parent, name)]? = some other at hother
    split
    · next hself =>
      refine ⟨_, rfl, hkept fun e he heq => he ?_⟩
      rw [← Option.some.inj (hother.symm.trans heq), hself]
    · next hself =>
      refine ⟨_, rfl, fun e => ?_⟩
      show ((t.nodes.insert d { node with name, parent }).erase other)[e]? =
        if e = d then _ else if children[(parent, name)]? = some e then none else _
      rw [Std.HashMap.getElem?_erase, getElem?_insert_node, hother]
      by_cases he : e = other
      · subst he
        simp [hself]
      · simp [Ne.symm he]
  · next hother =>
    change children[(parent, name)]? = none at hother
    exact ⟨_, rfl, hkept fun e _ heq => Option.some_ne_none e (heq.symm.trans hother)⟩

/-! ### Handles that were handed out -/

namespace Numbered

theorem new (mount : MountId) (device : DeviceId) : (Tree.new mount device).Numbered :=
  (Sound.new mount device).id_lt

theorem put (h : t.Numbered) (hput : t.Puts d node t') (hid : d.id < t'.nextHandle) :
    t'.Numbered := by
  intro e node' hnode'
  rw [hput.nodes_eq] at hnode'
  split at hnode'
  · next he => exact he ▸ hid
  · exact (h e node' hnode').trans_le hput.nextHandle_le

/-- An entry that exists is changed. -/
theorem change (h : t.Numbered) (hnode : t.nodes[d]? = some other) (hput : t.Puts d node t') :
    t'.Numbered :=
  h.put hput ((h d other hnode).trans_le hput.nextHandle_le)

theorem makeDir (h : t.Numbered) (parent : Handle) (name : Bytes) :
    (t.makeDir parent name).2.Numbered := by
  cases hlookup : t.lookup? parent name with
  | none =>
    rw [makeDir_of_none hlookup]
    exact h.put (puts_makeFile t parent name) (Nat.lt_succ_self _)
  | some existing =>
    unfold Tree.makeDir
    rwa [hlookup]

theorem makeDirsIn (h : t.Numbered) (dir : Handle) (names : List Bytes) :
    (t.makeDirsIn dir names).2.Numbered := by
  induction names generalizing t dir with
  | nil => exact h
  | cons name names ih => exact ih (h.makeDir dir name) _

theorem rename (h : t.Numbered) (d parent : Handle) (name : Bytes) :
    (t.rename d parent name).Numbered := by
  cases hnode : t.nodes[d]? with
  | none => rwa [rename_of_none hnode]
  | some node =>
    obtain ⟨nodes, hrename, hnodes⟩ := rename_eq hnode parent name
    rw [hrename]
    intro e node' hnode'
    change nodes[e]? = some node' at hnode'
    rw [hnodes] at hnode'
    split at hnode'
    · next he => exact he ▸ h d node hnode
    · split at hnode'
      · cases hnode'
      · exact h e node' hnode'

theorem forget (h : t.Numbered) (d : Handle) : (t.forget d).Numbered := by
  intro e node hnode
  rw [(fields_forget t d).1]
  rw [nodes_forget] at hnode
  split at hnode
  · cases hnode
  · exact h e node hnode

end Numbered

/-! ### What stays current -/

theorem current_new (mount : MountId) (device : DeviceId) : (new mount device).Current := by
  intro parent name d hlisted
  exact absurd hlisted (by simp [lookup?, new])

/-- What a directory lists is listed by one directory only, under one name. -/
theorem Current.eq_of_lookup? (h : t.Current) (hnode : t.nodes[d]? = some node)
    (hlisted : t.lookup? dir n = some d) : dir = node.parent ∧ n = node.name := by
  obtain ⟨node', hnode', rfl, rfl⟩ := h dir n d hlisted
  obtain rfl := Option.some.inj (hnode.symm.trans hnode')
  exact ⟨rfl, rfl⟩

namespace Current

/-- Nothing new is listed, and what is still listed keeps its directory and its name. -/
theorem of_kept (h : t.Current)
    (hkept : ∀ dir n e, t'.lookup? dir n = some e → t.lookup? dir n = some e ∧
      ∀ node, t.nodes[e]? = some node →
        ∃ node', t'.nodes[e]? = some node' ∧ node'.parent = node.parent ∧ node'.name = node.name) :
    t'.Current := by
  intro dir n e hlisted
  obtain ⟨hbefore, hsame⟩ := hkept dir n e hlisted
  obtain ⟨node, hnode, rfl, rfl⟩ := h dir n e hbefore
  exact hsame node hnode

theorem put (h : t.Current) (hnode : t.nodes[d]? = some node) (hput : t.Puts d other t')
    (hparent : other.parent = node.parent) (hname : other.name = node.name)
    (hlisted : ∀ dir n e, t'.lookup? dir n = some e → t.lookup? dir n = some e) : t'.Current := by
  refine h.of_kept fun dir n e hlisted' => ⟨hlisted dir n e hlisted', fun node' hnode' => ?_⟩
  rw [hput.nodes_eq]
  by_cases he : e = d
  · subst he
    obtain rfl := Option.some.inj (hnode.symm.trans hnode')
    exact ⟨other, if_pos rfl, hparent, hname⟩
  · exact ⟨node', (if_neg he).trans hnode', rfl, rfl⟩

theorem add (h : t.Current) (hid : t.Numbered) (parent : Handle) (name : Bytes) (inode : Inode) :
    (t.add parent name inode).2.Current := by
  intro dir n e hlisted
  rw [lookup?_add] at hlisted
  rw [nodes_add]
  split at hlisted
  · next hkey =>
    obtain ⟨rfl, rfl⟩ := hkey
    obtain rfl := Option.some.inj hlisted
    exact ⟨_, if_pos rfl, rfl, rfl⟩
  · obtain ⟨node, hnode, hkey⟩ := h dir n e hlisted
    have hold : e ≠ ⟨t.nextHandle⟩ := by
      rintro rfl
      exact lt_irrefl _ (hid _ node hnode)
    exact ⟨node, (if_neg hold).trans hnode, hkey⟩

theorem makeFile (h : t.Current) (hid : t.Numbered) (parent : Handle) (name : Bytes) :
    (t.makeFile parent name).2.Current :=
  add (t := t.drawInode.2) h hid parent name t.nextInode

theorem makeDir (h : t.Current) (hid : t.Numbered) (parent : Handle) (name : Bytes) :
    (t.makeDir parent name).2.Current := by
  cases hlookup : t.lookup? parent name with
  | none =>
    rw [makeDir_of_none hlookup]
    exact h.makeFile hid parent name
  | some existing =>
    unfold Tree.makeDir
    rwa [hlookup]

theorem makeDirsIn (h : t.Current) (hid : t.Numbered) (dir : Handle) (names : List Bytes) :
    (t.makeDirsIn dir names).2.Current := by
  induction names generalizing t dir with
  | nil => exact h
  | cons name names ih => exact ih (h.makeDir hid dir name) (hid.makeDir dir name) _

theorem instantiate (h : t.Current) (d : Handle) : (t.instantiate d).2.Current := by
  cases hnode : t.nodes[d]? with
  | none =>
    rw [instantiate_of_none hnode]
    exact h
  | some node =>
    refine h.put hnode (puts_instantiate hnode) rfl rfl fun dir n e hlisted => ?_
    simpa [Tree.instantiate, drawInode, hnode, setInode, lookup?] using hlisted

theorem link (h : t.Current) (existing target : Handle) : (t.link existing target).2.Current := by
  cases hnode : t.nodes[existing]? with
  | none => rwa [link_of_none (Or.inl hnode)]
  | some node =>
    cases hother : t.nodes[target]? with
    | none => rwa [link_of_none (Or.inr hother)]
    | some other =>
      refine h.put hother (puts_link hnode hother) rfl rfl fun dir n e hlisted => ?_
      rwa [link_eq hnode hother] at hlisted

theorem unlink (h : t.Current) (d : Handle) : (t.unlink d).Current := by
  cases hnode : t.nodes[d]? with
  | none => rwa [unlink_of_none hnode]
  | some node =>
    refine h.put hnode (puts_unlink hnode) rfl rfl fun dir n e hlisted => ?_
    simp only [Tree.unlink, hnode] at hlisted
    exact (lookup?_of_dropChild hlisted).1

theorem forget (h : t.Current) (d : Handle) : (t.forget d).Current := by
  cases hnode : t.nodes[d]? with
  | none => rwa [forget_of_none hnode]
  | some node =>
    refine h.of_kept fun dir n e hlisted => ?_
    simp only [Tree.forget, hnode] at hlisted
    obtain ⟨hbefore, hother⟩ := lookup?_of_dropChild hlisted
    have he : e ≠ d := by
      rintro rfl
      obtain ⟨hdir, hn⟩ := h.eq_of_lookup? hnode hbefore
      exact hother ⟨hdir, hn, rfl⟩
    refine ⟨hbefore, fun node' hnode' => ⟨node', ?_, rfl, rfl⟩⟩
    rw [nodes_forget, if_neg he, hnode']

theorem rename (h : t.Current) (d parent : Handle) (name : Bytes) :
    (t.rename d parent name).Current := by
  cases hnode : t.nodes[d]? with
  | none => rwa [rename_of_none hnode]
  | some node =>
    obtain ⟨nodes, hrename, hnodes⟩ := rename_eq hnode parent name
    rw [hrename]
    intro dir n e hlisted
    show ∃ node', nodes[e]? = some node' ∧ _
    rw [hnodes]
    replace hlisted := (lookup?_insert _).symm.trans hlisted
    split at hlisted
    · next hkey =>
      obtain ⟨rfl, rfl⟩ := hkey
      obtain rfl := Option.some.inj hlisted
      exact ⟨_, if_pos rfl, rfl, rfl⟩
    · next hkey =>
      -- listed elsewhere, so neither the moved entry nor the one that it takes the place of
      obtain ⟨hbefore, hother⟩ := lookup?_of_dropChild hlisted
      obtain ⟨node', hnode', rfl, rfl⟩ := h dir n e hbefore
      have he : e ≠ d := by
        rintro rfl
        obtain ⟨hdir, hn⟩ := h.eq_of_lookup? hnode hbefore
        exact hother ⟨hdir, hn, rfl⟩
      have hleft :
          (t.dropChild node.parent node.name d).lookup? parent name ≠ some e := fun hreplaced => by
        obtain ⟨hdir, hn⟩ := h.eq_of_lookup? hnode' (lookup?_of_dropChild hreplaced).1
        exact hkey ⟨hdir.symm, hn.symm⟩
      exact ⟨node', by rw [if_neg he, if_neg hleft, hnode'], rfl, rfl⟩

end Current

/-- An entry that loses its name is listed under it from then on, if it was before. -/
theorem current_disconnect_iff (h : t.Current) (d : Handle) :
    (t.disconnect d).Current ↔ ¬ t.Listed d := by
  cases hnode : t.nodes[d]? with
  | none =>
    rw [disconnect_of_none hnode]
    refine iff_of_true h ?_
    rintro ⟨node, hnode', -⟩
    exact Option.some_ne_none node (hnode'.symm.trans hnode)
  | some node =>
    have hput := puts_disconnect hnode
    have hlookup : ∀ dir n, (t.disconnect d).lookup? dir n = t.lookup? dir n := fun dir n => by
      rw [disconnect_eq hnode]
      rfl
    have hself : (t.disconnect d).nodes[d]? = some { node with name := [] } := by
      rw [hput.nodes_eq, if_pos rfl]
    constructor
    · rintro hcurrent ⟨node', hnode', hname, hlisted⟩
      obtain rfl := Option.some.inj (hnode.symm.trans hnode')
      exact hname (hcurrent.eq_of_lookup? hself ((hlookup _ _).trans hlisted)).2
    · intro hlisted
      refine h.of_kept fun dir n e hlisted' => ?_
      rw [hlookup] at hlisted'
      refine ⟨hlisted', fun node' hnode' => ?_⟩
      by_cases he : e = d
      · subst he
        obtain rfl := Option.some.inj (hnode.symm.trans hnode')
        obtain ⟨rfl, rfl⟩ := h.eq_of_lookup? hnode hlisted'
        -- what is listed and not `Listed` had no name before
        have hname : node.name = [] := by
          by_contra hname
          exact hlisted ⟨node, hnode, hname, hlisted'⟩
        exact ⟨_, hself, rfl, hname.symm⟩
      · exact ⟨node', by rw [hput.nodes_eq, if_neg he, hnode'], rfl, rfl⟩

/-! ### Any calls -/

theorem Numbered.edit (h : t.Numbered) (c : Edit) : (t.edit c).Numbered := by
  cases c with
  | makeDir parent name => exact h.makeDir parent name
  | makeDirs path => exact h.makeDirsIn root path.components
  | makeFile parent name => exact h.put (puts_makeFile t parent name) (Nat.lt_succ_self _)
  | makeNegative parent name => exact h.put (puts_makeNegative t parent name) (Nat.lt_succ_self _)
  | rename d parent name => exact h.rename d parent name
  | forget d => exact h.forget d
  | instantiate d =>
    show (t.instantiate d).2.Numbered
    cases hnode : t.nodes[d]? with
    | none =>
      rw [instantiate_of_none hnode]
      exact h
    | some node => exact h.change hnode (puts_instantiate hnode)
  | link existing target =>
    show (t.link existing target).2.Numbered
    cases hnode : t.nodes[existing]? with
    | none => rwa [link_of_none (Or.inl hnode)]
    | some node =>
      cases hother : t.nodes[target]? with
      | none => rwa [link_of_none (Or.inr hother)]
      | some other => exact h.change hother (puts_link hnode hother)
  | unlink d =>
    show (t.unlink d).Numbered
    cases hnode : t.nodes[d]? with
    | none => rwa [unlink_of_none hnode]
    | some node => exact h.change hnode (puts_unlink hnode)
  | disconnect d =>
    show (t.disconnect d).Numbered
    cases hnode : t.nodes[d]? with
    | none => rwa [disconnect_of_none hnode]
    | some node => exact h.change hnode (puts_disconnect hnode)

theorem Numbered.edited (h : t.Numbered) (edits : List Edit) : (t.edited edits).Numbered := by
  induction edits generalizing t with
  | nil => exact h
  | cons c edits ih => exact ih (h.edit c)

/-- A call that takes no name from an entry that is listed. -/
theorem Current.edit (h : t.Current) (hid : t.Numbered) (c : Edit)
    (hc : ∀ d, c = .disconnect d → ¬ t.Listed d) : (t.edit c).Current := by
  cases c with
  | makeDir parent name => exact h.makeDir hid parent name
  | makeDirs path => exact h.makeDirsIn hid root path.components
  | makeFile parent name => exact h.makeFile hid parent name
  | makeNegative parent name => exact h.add hid parent name 0
  | instantiate d => exact h.instantiate d
  | link existing target => exact h.link existing target
  | rename d parent name => exact h.rename d parent name
  | unlink d => exact h.unlink d
  | forget d => exact h.forget d
  | disconnect d => exact (current_disconnect_iff h d).2 (hc d rfl)

theorem edited_concat (t : Tree) (edits : List Edit) (c : Edit) :
    t.edited (edits ++ [c]) = (t.edited edits).edit c := by
  simp [edited, List.foldl_append]

/-- What is listed is current if and only if every directory that is asked for is one that exists,
where it was asked for. -/
theorem current_iff_makeDir (t : Tree) : t.Current ↔ ∀ (parent : Handle) (name : Bytes),
    ∃ node, (t.makeDir parent name).2.nodes[(t.makeDir parent name).1]? = some node ∧
      node.parent = parent ∧ node.name = name := by
  constructor
  · intro h parent name
    cases hlookup : t.lookup? parent name with
    | none =>
      rw [makeDir_of_none hlookup]
      exact ⟨_, (nodes_add t.drawInode.2 parent name t.nextInode _).trans (if_pos rfl), rfl, rfl⟩
    | some existing =>
      unfold makeDir
      rw [hlookup]
      exact h parent name existing hlookup
  · intro h parent name d hlisted
    have hmade := h parent name
    unfold makeDir at hmade
    rwa [hlisted] at hmade

/-- Whatever calls are made on a new tree, these are the same: at all times, what a directory lists
under a name is an entry that exists, in that directory and of that name; at all times, making a
directory gives an entry that exists, in the place that was asked for; and no call ever takes the
name of an entry that is listed under it. -/
theorem edited_current_tfae (mount : MountId) (device : DeviceId) (edits : List Edit) :
    List.TFAE [
      ∀ front, front <+: edits → ∀ (parent : Handle) (name : Bytes) (d : Handle),
        ((new mount device).edited front).lookup? parent name = some d →
          ∃ node, ((new mount device).edited front).nodes[d]? = some node ∧
            node.parent = parent ∧ node.name = name,
      ∀ front, front <+: edits → ∀ (parent : Handle) (name : Bytes), ∃ node,
        (((new mount device).edited front).makeDir parent name).2.nodes[
          (((new mount device).edited front).makeDir parent name).1]? = some node ∧
            node.parent = parent ∧ node.name = name,
      ∀ front d, front ++ [.disconnect d] <+: edits →
        ¬ ((new mount device).edited front).Listed d] := by
  tfae_have 1 ↔ 2 :=
    forall₂_congr fun front _ => current_iff_makeDir ((new mount device).edited front)
  tfae_have 1 → 3 := by
    intro hcurrent front d hfront
    have hbefore := hcurrent front ((List.prefix_append front _).trans hfront)
    refine (current_disconnect_iff hbefore d).1 ?_
    have hafter := hcurrent _ hfront
    rwa [edited_concat] at hafter
  tfae_have 3 → 1 := by
    intro hnames front
    induction front using List.reverseRecOn with
    | nil => exact fun _ => current_new mount device
    | append_singleton front c ih =>
      intro hfront
      have hbefore := ih ((List.prefix_append front _).trans hfront)
      have hid := (Numbered.new mount device).edited front
      rw [edited_concat]
      exact Current.edit hbefore hid c fun d hc => hnames front d (hc ▸ hfront)
  tfae_finish

/-- A file that loses its name is still listed under it. When it is forgotten, that stays so, and a
directory that is made in its place is the missing file. -/
theorem lookup?_nameless :
    let t := (new 1 1).edited [.makeFile root [97], .disconnect ⟨2⟩]
    (t.lookup? root [97] = some ⟨2⟩ ∧ t.nodes[(⟨2⟩ : Handle)]? = some ⟨[], root, 3⟩) ∧
      ((t.forget ⟨2⟩).makeDir root [97]).1 = ⟨2⟩ ∧
      ((t.forget ⟨2⟩).makeDir root [97]).2.nodes[(⟨2⟩ : Handle)]? = none := by
  simp [edited, edit, makeFile, drawInode, add, new, disconnect, lookup?, forget, makeDir, dropChild,
    root, rootInode]

end Tree

end FsTrace
