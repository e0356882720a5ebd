import FsTrace.Proofs.ListedEntries
import FsTrace.Tree.Growth

/-!
# What a grown tree has

A tree grows by entries with inodes of their own, and nothing that is there is changed meanwhile. A
directory whose name is drawn twice in one place is found again, which takes that what is listed is
current.

* `Tree.Growing`: what holds of a tree while it grows;
* `Tree.Adds`: from one tree to a later one, these entries were added or found, and all others are
  as they were; one lemma for each function that grows a part;
* `GrownTree.Complete`: the directories are alive, there is a file, and files are in directories;
* `TreeShape.grow_of_validate`: without a measure that is zero, a tree is grown, and it is complete.
-/

namespace FsTrace

namespace Tree

variable {t t' t'' : Tree} {d dir : Handle} {name : Bytes} {node : Node} {made made' : List Handle}
  {p q : Node → Prop}

/-! ### Trees that grow -/

/-- What is listed is current, and every entry has an inode. -/
structure Growing (t : Tree) : Prop where
  numbered : t.Numbered
  current : t.Current
  inode_ne_zero : ∀ (d : Handle) (node : Node), t.nodes[d]? = some node → node.inode ≠ 0
  nextInode_ne_zero : t.nextInode ≠ 0

theorem growing_new (mount : MountId) (device : DeviceId) : (new mount device).Growing where
  numbered := .new mount device
  current := current_new mount device
  inode_ne_zero d node hnode := by
    have hroot : (new mount device).nodes[d]? = if d = root then _ else _ :=
      getElem?_insert_node _ d
    rw [hroot] at hnode
    split at hnode
    · obtain rfl := Option.some.inj hnode
      exact Nat.succ_ne_zero _
    · simp at hnode
  nextInode_ne_zero := Nat.succ_ne_zero _

theorem Growing.makeFile (h : t.Growing) (dir : Handle) (name : Bytes) :
    (t.makeFile dir name).2.Growing where
  numbered := h.numbered.put (puts_makeFile t dir name) (Nat.lt_succ_self _)
  current := h.current.makeFile h.numbered dir name
  inode_ne_zero d node hnode := by
    rw [(puts_makeFile t dir name).nodes_eq] at hnode
    split at hnode
    · obtain rfl := Option.some.inj hnode
      exact h.nextInode_ne_zero
    · exact h.inode_ne_zero d node hnode
  nextInode_ne_zero := Nat.succ_ne_zero _

/-- A tree has grown to a later one. All entries are as they were, and those that were made are of
this kind. -/
structure Adds (t : Tree) (made : List Handle) (p : Node → Prop) (t' : Tree) : Prop where
  growing : t'.Growing
  kept : ∀ (d : Handle) (node : Node), t.nodes[d]? = some node → t'.nodes[d]? = some node
  made : ∀ d ∈ made, ∃ node, t'.nodes[d]? = some node ∧ p node

namespace Adds

theorem refl (h : t.Growing) : t.Adds [] p t := ⟨h, fun _ _ => id, fun _ hd => nomatch hd⟩

theorem trans (h : t.Adds made p t') (h' : t'.Adds made' p t'') :
    t.Adds (made ++ made') p t'' where
  growing := h'.growing
  kept d node hnode := h'.kept d node (h.kept d node hnode)
  made d hd := by
    rcases List.mem_append.1 hd with hd | hd
    · obtain ⟨node, hnode, hp⟩ := h.made d hd
      exact ⟨node, h'.kept d node hnode, hp⟩
    · exact h'.made d hd

theorem imp (h : t.Adds made p t') (hpq : ∀ node, p node → q node) : t.Adds made q t' where
  growing := h.growing
  kept := h.kept
  made d hd := by
    obtain ⟨node, hnode, hp⟩ := h.made d hd
    exact ⟨node, hnode, hpq node hp⟩

end Adds

/-! ### Parts that grow -/

theorem adds_makeFile (h : t.Growing) (dir : Handle) (name : Bytes) :
    t.Adds [(t.makeFile dir name).1] (·.parent = dir) (t.makeFile dir name).2 where
  growing := h.makeFile dir name
  kept d node hnode := by
    have hold : d ≠ ⟨t.nextHandle⟩ := by
      rintro rfl
      exact lt_irrefl _ (h.numbered _ node hnode)
    rw [(puts_makeFile t dir name).nodes_eq, if_neg hold, hnode]
  made d hd := by
    obtain rfl := List.mem_singleton.1 hd
    exact ⟨_, ((puts_makeFile t dir name).nodes_eq _).trans (if_pos rfl), rfl⟩

/-- A directory that is there already is current. -/
theorem adds_makeDir (h : t.Growing) (dir : Handle) (name : Bytes) :
    t.Adds [(t.makeDir dir name).1] (·.parent = dir) (t.makeDir dir name).2 := by
  cases hlookup : t.lookup? dir name with
  | none =>
    rw [makeDir_of_none hlookup]
    exact adds_makeFile h dir name
  | some existing =>
    have hsame : t.makeDir dir name = (existing, t) := by rw [makeDir, hlookup]
    rw [hsame]
    refine ⟨h, fun _ _ => id, fun d hd => ?_⟩
    obtain rfl := List.mem_singleton.1 hd
    obtain ⟨node, hnode, hparent, -⟩ := h.current dir name d hlookup
    exact ⟨node, hnode, hparent⟩

end Tree

open FsTrace.Tree

namespace TreeShape

variable {t : Tree} {places : List (Handle × Bytes)} {folders : List Handle}

theorem adds_growChain (h : t.Growing) (dir : Handle) (names : List Bytes) :
    t.Adds (growChain t dir names).1 (fun _ => True) (growChain t dir names).2 := by
  induction names generalizing t dir with
  | nil => exact .refl h
  | cons name names ih =>
    have hdir := (adds_makeDir h dir name).imp (q := fun _ => True) fun _ _ => trivial
    exact hdir.trans (ih hdir.growing _)

theorem adds_growChains (h : t.Growing) (top : Handle) (names : List (List Bytes)) :
    t.Adds (growChains t top names).1.flatten (fun _ => True) (growChains t top names).2 := by
  induction names generalizing t with
  | nil => exact .refl h
  | cons chain names ih =>
    have hchain := adds_growChain h top chain
    exact hchain.trans (ih hchain.growing)

theorem adds_growFiles (h : t.Growing) (hplaces : ∀ place ∈ places, place.1 ∈ folders) :
    t.Adds (growFiles t places).1 (·.parent ∈ folders) (growFiles t places).2 := by
  induction places generalizing t with
  | nil => exact .refl h
  | cons place places ih =>
    have hplace : place.1 ∈ folders := hplaces place List.mem_cons_self
    have hfile : t.Adds _ (·.parent ∈ folders) _ :=
      (adds_makeFile h place.1 place.2).imp fun _ hparent => hparent ▸ hplace
    exact hfile.trans (ih hfile.growing fun place hmem => hplaces place (List.mem_cons_of_mem _ hmem))

theorem length_growFiles (t : Tree) (places : List (Handle × Bytes)) :
    (growFiles t places).1.length = places.length := by
  induction places generalizing t with
  | nil => rfl
  | cons place places ih => exact congrArg Nat.succ (ih _)

theorem length_growChain (t : Tree) (dir : Handle) (names : List Bytes) :
    (growChain t dir names).1.length = names.length := by
  induction names generalizing t dir with
  | nil => rfl
  | cons name names ih => exact congrArg Nat.succ (ih _ _)

theorem length_growChains (t : Tree) (top : Handle) (names : List (List Bytes)) :
    (growChains t top names).1.flatten.length = names.flatten.length := by
  induction names generalizing t with
  | nil => rfl
  | cons chain names ih =>
    rw [growChains, List.flatten_cons, List.flatten_cons, List.length_append, List.length_append,
      ih, length_growChain]

end TreeShape

/-! ### Whole trees -/

/-- The directories of a grown tree are there, there is a file, and each file is in one of the
directories. -/
structure GrownTree.Complete (g : GrownTree) (t : Tree) : Prop where
  growing : t.Growing
  top_mem : g.top ∈ g.folders
  exists_of_folder : ∀ d ∈ g.folders, ∃ node, t.nodes[d]? = some node
  files_ne_nil : g.files ≠ []
  parent_of_file : ∀ d ∈ g.files, ∃ node, t.nodes[d]? = some node ∧ node.parent ∈ g.folders

namespace TreeShape

variable {s : TreeShape} {t : Tree} {folders : List Handle}

/-- What is found at an index is one of the list, or what stands for it if there is none. -/
theorem getD_mem {dirs : List Handle} {d : Handle} {n : Nat} (hdirs : ∀ dir ∈ dirs, dir ∈ folders)
    (hd : d ∈ folders) : dirs.getD n d ∈ folders := by
  rw [List.getD_eq_getElem?_getD]
  cases hfound : dirs[n]? with
  | none => exact hd
  | some dir => exact hdirs dir (List.mem_of_getElem? hfound)

theorem files_ne_zero (hvalid : s.validate = .ok ()) : s.files ≠ 0 := by
  unfold validate at hvalid
  split at hvalid
  · cases hvalid
  · next hnone =>
    have hfiles := List.find?_eq_none.1 hnone ("files", s.files) (by simp)
    simpa using hfiles

/-- Without a measure that is zero, a tree is grown, and it is complete. Of its directories, those
that were found again are in the list as often. -/
theorem grow_of_validate (hvalid : s.validate = .ok ()) (h : t.Growing) (draws : Draws) :
    ∃ g t', s.grow t draws = .ok (g, t') ∧ g.Complete t' ∧
      g.folders.length = s.breadth * s.depth + 1 := by
  obtain ⟨top, t₁, htop⟩ : ∃ top t₁, t.makeDir root (topStem ++ draws.name 0) = (top, t₁) :=
    ⟨_, _, rfl⟩
  let names := (List.range s.breadth).map fun chain =>
    (List.range s.depth).map fun level => draws.name (1 + chain * s.depth + level)
  obtain ⟨chains, t₂, hchains⟩ : ∃ chains t₂, growChains t₁ top names = (chains, t₂) := ⟨_, _, rfl⟩
  let ends := chains.map fun chain => chain.getLastD top
  let places := (List.range s.files).map fun file =>
    (ends.getD (draws.place file % ends.length) top, draws.name (1 + s.breadth * s.depth + file))
  obtain ⟨files, t₃, hfiles⟩ : ∃ files t₃, growFiles t₂ places = (files, t₃) := ⟨_, _, rfl⟩
  have hgrow : s.grow t draws = .ok (⟨top, top :: chains.flatten, files⟩, t₃) := by
    rw [grow, hvalid]
    obtain ⟨rfl, rfl⟩ := Prod.ext_iff.1 htop
    obtain ⟨rfl, rfl⟩ := Prod.ext_iff.1 hchains
    obtain ⟨rfl, rfl⟩ := Prod.ext_iff.1 hfiles
    rfl
  have haddsTop : t.Adds [top] (fun _ => True) t₁ := by
    have hadds := (adds_makeDir h root (topStem ++ draws.name 0)).imp (q := fun _ => True)
      fun _ _ => trivial
    rwa [htop] at hadds
  have haddsChains : t₁.Adds chains.flatten (fun _ => True) t₂ := by
    have hadds := adds_growChains haddsTop.growing top names
    rwa [hchains] at hadds
  have hends : ∀ dir ∈ ends, dir ∈ top :: chains.flatten := by
    intro dir hdir
    obtain ⟨chain, hchain, rfl⟩ := List.mem_map.1 hdir
    have hlast : chain.getLastD top ∈ top :: chain := List.getLastD_mem_cons
    rcases List.mem_cons.1 hlast with hdir | hdir
    · rw [hdir]
      exact List.mem_cons_self
    · exact List.mem_cons_of_mem _ (List.mem_flatten_of_mem hchain hdir)
  have hplaces : ∀ place ∈ places, place.1 ∈ top :: chains.flatten := by
    intro place hplace
    obtain ⟨file, -, rfl⟩ := List.mem_map.1 hplace
    exact getD_mem hends List.mem_cons_self
  have haddsFiles : t₂.Adds files (·.parent ∈ top :: chains.flatten) t₃ := by
    have hadds := adds_growFiles haddsChains.growing hplaces
    rwa [hfiles] at hadds
  refine ⟨_, t₃, hgrow, ⟨haddsFiles.growing, List.mem_cons_self, fun d hd => ?_, ?_,
    haddsFiles.made⟩, ?_⟩
  · obtain ⟨node, hnode, -⟩ := (haddsTop.trans haddsChains).made d hd
    exact ⟨node, haddsFiles.kept d node hnode⟩
  · rintro rfl
    have hlength := length_growFiles t₂ places
    rw [hfiles, List.length_map, List.length_range] at hlength
    exact files_ne_zero hvalid hlength.symm
  · have hlength := length_growChains t₁ top names
    rw [hchains, List.length_flatten, List.length_flatten, List.map_map] at hlength
    rw [List.length_cons, List.length_flatten, hlength]
    simp [Function.comp_def]

end TreeShape

end FsTrace
