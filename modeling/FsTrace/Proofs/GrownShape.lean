import FsTrace.Proofs.GrownTrees
import FsTrace.Proofs.MovedSubtrees
import FsTrace.Proofs.WrittenLines
import Mathlib.Data.List.GetD

/-!
# The shape of a grown tree

A tree is grown from drawn names, which may collide. Two directories that draw the same name in one
place are one, and a file hides another of its name from its directory. The shape is the same for
all draws: the ends of the chains have no directories in them, so that a file can hide files only.

* `Tree.pathComponents`: the names in a path as it is shown;
* `Tree.Planted`: what holds of a tree while it grows; `Tree.Extends`: no entry changes, and what is
  listed stays listed;
* `Tree.Nested`: directories of these names, each inside the last;
* `TreeShape.nested_growChain`, `TreeShape.nested_growChains`: the directories that are grown;
* `TreeShape.fst_growFiles`, `TreeShape.nodes_growFiles`: the files that are grown;
* `GrownTree.Shaped`: the shape; `TreeShape.grow_shaped`: every tree that is grown has it.
-/

namespace FsTrace

/-! ### Names of a path -/

namespace Tree

/-- The names in a path as it is shown. -/
def pathComponents (path : String) : List (List Char) :=
  (path.toList.splitOn '/').filter (! ·.isEmpty)

/-- A name that is shown as it is, and in one piece. -/
structure PlainName (name : Bytes) : Prop where
  ne_nil : name ≠ []
  ascii : ∀ b ∈ name, b < 0x80
  slashFree : Bytes.slash ∉ name

end Tree

namespace Text

theorem decodeLossy_of_lt {bs : Bytes} (h : ∀ b ∈ bs, b < 0x80) :
    decodeLossy bs = bs.map fun b => Char.ofNat b.toNat := by
  induction bs with
  | nil => rw [decodeLossy, List.map_nil]
  | cons b bs ih =>
    obtain ⟨hb, hbs⟩ := List.forall_mem_cons.1 h
    simp only [decodeLossy, decodeFirst_of_lt hb, List.drop_zero, List.map_cons, ih hbs]

theorem ofNat_eq_slash {b : UInt8} : Char.ofNat b.toNat = '/' ↔ b = Bytes.slash := by
  rw [ofNat_eq_iff (by decide), ← UInt8.toNat_inj]
  rfl

end Text

namespace Tree

theorem PlainName.decodeLossy {name : Bytes} (h : PlainName name) :
    Text.decodeLossy name ≠ [] ∧ '/' ∉ Text.decodeLossy name := by
  rw [Text.decodeLossy_of_lt h.ascii]
  constructor
  · simpa using h.ne_nil
  · intro hmem
    obtain ⟨b, hb, hslash⟩ := List.mem_map.1 hmem
    exact h.slashFree (Text.ofNat_eq_slash.1 hslash ▸ hb)

theorem pathComponents_showPath {names : List Bytes} (hne : names ≠ [])
    (hnames : ∀ name ∈ names, PlainName name) :
    pathComponents (showPath names) = names.map Text.decodeLossy := by
  have hjoined : '/' :: ['/'].intercalate (names.map Text.decodeLossy) =
      ['/'].intercalate ([] :: names.map Text.decodeLossy) := by
    rw [List.intercalate_cons_of_ne_nil (by simpa using hne)]
    rfl
  have hpiece : ∀ piece ∈ names.map Text.decodeLossy, piece ≠ [] ∧ '/' ∉ piece := by
    intro piece hpiece
    obtain ⟨name, hname, rfl⟩ := List.mem_map.1 hpiece
    exact (hnames name hname).decodeLossy
  rw [pathComponents, toList_showPath, hjoined, List.splitOn_intercalate]
  · rw [List.filter_cons_of_neg (by simp), List.filter_eq_self]
    intro piece hmem
    simpa using (hpiece piece hmem).1
  · exact List.forall_mem_cons.2 ⟨List.not_mem_nil, fun piece hmem => (hpiece piece hmem).2⟩
  · exact List.cons_ne_nil _ _

variable {t t' t'' : Tree} {top d e dir : Handle} {name n : Bytes} {node : Node}
  {names : List Bytes} {dirs above : List Handle} {i : Nat}

/-! ### Trees that grow -/

/-- A tree that grows, in which every entry came after its directory. -/
structure Planted (t : Tree) : Prop where
  growing : t.Growing
  rooted : t.Rooted
  parent_lt : ∀ (d : Handle) (node : Node), t.nodes[d]? = some node → d ≠ root →
    node.parent.id < d.id

theorem planted_new (mount : MountId) (device : DeviceId) : (new mount device).Planted where
  growing := growing_new mount device
  rooted := .new mount device
  parent_lt := (Sound.new mount device).parent_lt

/-- No entry changes, and what is listed stays listed. -/
structure Extends (t t' : Tree) : Prop where
  nodes_kept : ∀ (d : Handle) (node : Node), t.nodes[d]? = some node → t'.nodes[d]? = some node
  listed_kept : ∀ dir n d, t.lookup? dir n = some d → t'.lookup? dir n = some d

theorem Extends.refl (t : Tree) : t.Extends t := ⟨fun _ _ => id, fun _ _ _ => id⟩

theorem Extends.trans (h : t.Extends t') (h' : t'.Extends t'') : t.Extends t'' where
  nodes_kept d node hnode := h'.nodes_kept d node (h.nodes_kept d node hnode)
  listed_kept dir n d hlisted := h'.listed_kept dir n d (h.listed_kept dir n d hlisted)

theorem Climbs.of_kept (h : t.Climbs top d above)
    (hkept : ∀ (d : Handle) (node : Node), t.nodes[d]? = some node → t'.nodes[d]? = some node) :
    t'.Climbs top d above := by
  refine h.congr fun e he => ?_
  obtain ⟨-, node, hnode, -⟩ := h.exists_node_of_mem he
  rw [hnode, hkept e node hnode]

/-- `d` is in the directory `dir`, which lists it under its name, and came after it. -/
structure Holds (t : Tree) (dir : Handle) (name : Bytes) (d : Handle) : Prop where
  listed : t.lookup? dir name = some d
  exists_node : ∃ node, t.nodes[d]? = some node ∧ node.parent = dir ∧ node.name = name
  id_lt : dir.id < d.id

theorem Holds.mono (h : t.Holds dir name d) (hext : t.Extends t') : t'.Holds dir name d := by
  obtain ⟨node, hnode, hkey⟩ := h.exists_node
  exact ⟨hext.listed_kept dir name d h.listed, ⟨node, hext.nodes_kept d node hnode, hkey⟩, h.id_lt⟩

namespace Planted

theorem makeFile (h : t.Planted) (hdir : t.nodes[dir]? = some node) (name : Bytes) :
    (t.makeFile dir name).2.Planted where
  growing := h.growing.makeFile dir name
  rooted := h.rooted.makeFile dir name
  parent_lt d other hother hd := by
    rw [(puts_makeFile t dir name).nodes_eq] at hother
    split at hother
    · next hnew =>
      obtain rfl := Option.some.inj hother
      rw [hnew]
      exact h.growing.numbered dir node hdir
    · exact h.parent_lt d other hother hd

theorem makeDir (h : t.Planted) (hdir : t.nodes[dir]? = some node) (name : Bytes) :
    (t.makeDir dir name).2.Planted := by
  cases hlookup : t.lookup? dir name with
  | none =>
    rw [makeDir_of_none hlookup]
    exact h.makeFile hdir name
  | some existing =>
    unfold Tree.makeDir
    rwa [hlookup]

theorem extends_makeDir (h : t.Planted) (dir : Handle) (name : Bytes) :
    t.Extends (t.makeDir dir name).2 := by
  refine ⟨(adds_makeDir h.growing dir name).kept, fun dir' n d hlisted => ?_⟩
  cases hlookup : t.lookup? dir name with
  | none =>
    have hother : ¬ (dir' = dir ∧ n = name) := by
      rintro ⟨rfl, rfl⟩
      exact Option.some_ne_none d (hlisted.symm.trans hlookup)
    rw [makeDir_of_none hlookup]
    exact ((lookup?_add t.drawInode.2 dir name t.nextInode dir' n).trans (if_neg hother)).trans
      hlisted
  | some existing =>
    unfold Tree.makeDir
    rwa [hlookup]

/-- A directory that was made, or found, is in its place. -/
theorem holds_makeDir (h : t.Planted) (hdir : t.nodes[dir]? = some node) (name : Bytes) :
    (t.makeDir dir name).2.Holds dir name (t.makeDir dir name).1 := by
  have hlisted : (t.makeDir dir name).2.lookup? dir name = some (t.makeDir dir name).1 := by
    cases hlookup : t.lookup? dir name with
    | none =>
      rw [makeDir_of_none hlookup]
      exact (lookup?_add t.drawInode.2 dir name t.nextInode dir name).trans (if_pos ⟨rfl, rfl⟩)
    | some existing =>
      unfold Tree.makeDir
      rw [hlookup]
      exact hlookup
  have hplanted := h.makeDir hdir name
  obtain ⟨made, hmade, hparent, hname⟩ := hplanted.growing.current dir name _ hlisted
  refine ⟨hlisted, ⟨made, hmade, hparent, hname⟩, ?_⟩
  have hne : (t.makeDir dir name).1 ≠ root := fun hroot =>
    hplanted.rooted.not_listed dir name (hroot ▸ hlisted)
  calc dir.id = made.parent.id := by rw [hparent]
    _ < _ := hplanted.parent_lt _ made hmade hne

end Planted

/-! ### Chains of directories -/

/-- Directories of these names, each inside the last and the first one in `dir`. -/
inductive Nested (t : Tree) : Handle → List Bytes → List Handle → Prop
  | nil {dir : Handle} : Nested t dir [] []
  | cons {dir d : Handle} {name : Bytes} {names : List Bytes} {dirs : List Handle} :
    t.Holds dir name d → Nested t d names dirs → Nested t dir (name :: names) (d :: dirs)

namespace Nested

theorem mono (h : t.Nested dir names dirs) (hext : t.Extends t') : t'.Nested dir names dirs := by
  induction h with
  | nil => exact .nil
  | cons hholds _ ih => exact .cons (hholds.mono hext) ih

theorem length_eq (h : t.Nested dir names dirs) : dirs.length = names.length := by
  induction h with
  | nil => rfl
  | cons _ _ ih => exact congrArg Nat.succ ih

theorem map_name (h : t.Nested dir names dirs) : dirs.map t.listing.name = names := by
  induction h with
  | nil => rfl
  | cons hholds _ ih =>
    obtain ⟨node, hnode, -, rfl⟩ := hholds.exists_node
    rw [List.map_cons, ih, name_listing hnode]

/-- Each directory is in the one before it. -/
theorem holds (h : t.Nested dir names dirs) (hd : dirs[i]? = some d) :
    ∃ parent name, (dir :: dirs)[i]? = some parent ∧ names[i]? = some name ∧
      t.Holds parent name d := by
  induction h generalizing i with
  | nil => simp at hd
  | @cons dir first name names dirs hholds _ ih =>
    cases i with
    | zero =>
      obtain rfl : first = d := Option.some.inj hd
      exact ⟨dir, name, rfl, rfl, hholds⟩
    | succ i => exact ih hd

/-- The links lead from each directory up the chain, and on to where those of `dir` lead. -/
theorem climbs (h : t.Nested dir names dirs) (hnames : ∀ name ∈ names, name ≠ [])
    (habove : t.Climbs top dir above) (hid : top.id ≤ dir.id) (hd : (dir :: dirs)[i]? = some d) :
    t.Climbs top d ((dirs.take i).reverse ++ above) := by
  induction h generalizing i above with
  | nil =>
    cases i with
    | zero =>
      obtain rfl := Option.some.inj hd
      exact habove
    | succ i => simp at hd
  | @cons dir first name names dirs hholds _ ih =>
    cases i with
    | zero =>
      obtain rfl := Option.some.inj hd
      exact habove
    | succ i =>
      obtain ⟨hname, hlater⟩ := List.forall_mem_cons.1 hnames
      obtain ⟨node, hnode, rfl, rfl⟩ := hholds.exists_node
      have hfirst : t.Climbs top first (first :: above) := by
        refine .step (fun heq => ?_) hnode hname (fun heq => ?_) habove
        · exact absurd hid (not_le_of_gt (heq ▸ hholds.id_lt))
        · exact absurd (heq ▸ hholds.id_lt) (lt_irrefl _)
      have hclimbs := ih hlater hfirst (hid.trans hholds.id_lt.le) hd
      rwa [List.take_succ_cons, List.reverse_cons, List.append_assoc, List.singleton_append]

/-- Each directory has the path that the names up to it make. -/
theorem pathOf?_eq (h : t.Nested top names dirs) (hnames : ∀ name ∈ names, name ≠ [])
    (htop : t.Climbs root top [top]) (hid : root.id ≤ top.id)
    (hd : (top :: dirs)[i]? = some d) :
    t.pathOf? d = some (showPath (t.listing.name top :: names.take i)) := by
  rw [(h.climbs hnames htop hid hd).pathOf?_eq, List.map_append, List.map_singleton,
    List.reverse_append, List.map_reverse, List.reverse_reverse, List.map_take, h.map_name]
  rfl

end Nested

/-! ### Paths of later trees -/

theorem pathOf?_of_kept {path : String} (h : t.pathOf? d = some path)
    (hkept : ∀ (d : Handle) (node : Node), t.nodes[d]? = some node → t'.nodes[d]? = some node) :
    t'.pathOf? d = some path := by
  obtain ⟨chain, hchain, rfl⟩ := exists_climbs h
  rw [(hchain.of_kept hkept).pathOf?_eq]
  congr 3
  refine List.map_congr_left fun e he => ?_
  obtain ⟨-, node, hnode, -⟩ := hchain.exists_node_of_mem he
  exact name_listing_congr ((hkept e node hnode).trans hnode.symm)

/-- An entry has the path of its directory, joined with its name. -/
theorem pathOf?_child {path : String} (hnode : t.nodes[d]? = some node) (hd : d ≠ root)
    (hname : node.name ≠ []) (hself : node.parent ≠ d) (hpath : t.pathOf? node.parent = some path) :
    t.pathOf? d = some (joined path node.name) := by
  obtain ⟨chain, hchain, rfl⟩ := exists_climbs hpath
  rw [(Climbs.step hd hnode hname hself hchain).pathOf?_eq, List.map_cons, List.reverse_cons,
    name_listing hnode, hchain.joined_eq]

end Tree

open FsTrace.Tree

namespace TreeShape

variable {t : Tree} {top dir : Handle} {node : Node} {names : List Bytes}
  {places : List (Handle × Bytes)} {folders : List Handle}

/-! ### What is grown -/

theorem nested_growChain (h : t.Planted) (hdir : t.nodes[dir]? = some node) (names : List Bytes) :
    (growChain t dir names).2.Planted ∧ t.Extends (growChain t dir names).2 ∧
      (growChain t dir names).2.Nested dir names (growChain t dir names).1 := by
  induction names generalizing t dir node with
  | nil => exact ⟨h, .refl t, .nil⟩
  | cons name names ih =>
    have hholds := h.holds_makeDir hdir name
    obtain ⟨made, hmade, -⟩ := hholds.exists_node
    obtain ⟨hplanted, hext, hnested⟩ := ih (h.makeDir hdir name) hmade
    exact ⟨hplanted, (h.extends_makeDir dir name).trans hext, .cons (hholds.mono hext) hnested⟩

theorem nested_growChains (h : t.Planted) (htop : t.nodes[top]? = some node)
    (names : List (List Bytes)) :
    (growChains t top names).2.Planted ∧ t.Extends (growChains t top names).2 ∧
      List.Forall₂ ((growChains t top names).2.Nested top) names (growChains t top names).1 := by
  induction names generalizing t with
  | nil => exact ⟨h, .refl t, .nil⟩
  | cons chain names ih =>
    obtain ⟨hchain, hext, hnested⟩ := nested_growChain h htop chain
    obtain ⟨hplanted, hext', hrest⟩ := ih hchain (hext.nodes_kept top node htop)
    exact ⟨hplanted, hext.trans hext', .cons (hnested.mono hext') hrest⟩

/-- Files have new handles, one after the other. -/
theorem fst_growFiles (t : Tree) (places : List (Handle × Bytes)) :
    (growFiles t places).1 = (List.range places.length).map fun k => ⟨t.nextHandle + k⟩ := by
  induction places generalizing t with
  | nil => rfl
  | cons place places ih =>
    rw [List.length_cons, List.range_succ_eq_map, List.map_cons, List.map_map]
    refine congrArg (_ :: ·) ((ih _).trans (List.map_congr_left fun k _ => ?_))
    exact congrArg Handle.mk (Nat.succ_add_eq_add_succ _ _)

theorem kept_growFiles (h : t.Growing) (places : List (Handle × Bytes)) {d : Handle} {node : Node}
    (hnode : t.nodes[d]? = some node) : (growFiles t places).2.nodes[d]? = some node := by
  have hadds : t.Adds _ (·.parent ∈ places.map Prod.fst) (growFiles t places).2 :=
    adds_growFiles h fun place hplace => List.mem_map_of_mem hplace
  exact hadds.kept d node hnode

/-- Files are in the directories that were drawn, and have new inodes, one after the other. -/
theorem nodes_growFiles (h : t.Growing) {k : Nat} {place : Handle × Bytes}
    (hplace : places[k]? = some place) :
    (growFiles t places).2.nodes[(⟨t.nextHandle + k⟩ : Handle)]? =
      some ⟨place.2, place.1, t.nextInode + k⟩ := by
  induction places generalizing t k with
  | nil => simp at hplace
  | cons first places ih =>
    have hrest := h.makeFile first.1 first.2
    cases k with
    | zero =>
      obtain rfl : first = place := Option.some.inj hplace
      refine kept_growFiles hrest places ?_
      rw [(puts_makeFile t first.1 first.2).nodes_eq]
      exact if_pos rfl
    | succ k =>
      have hfile := ih hrest hplace
      have hhandle : (t.makeFile first.1 first.2).2.nextHandle + k = t.nextHandle + (k + 1) :=
        Nat.succ_add_eq_add_succ _ _
      have hinode : (t.makeFile first.1 first.2).2.nextInode + k = t.nextInode + (k + 1) :=
        Nat.succ_add_eq_add_succ _ _
      rwa [hhandle, hinode] at hfile

/-- Directories that get no file list what they listed. -/
theorem lookup?_growFiles (hdir : ∀ place ∈ places, place.1 ≠ dir) (n : Bytes) :
    (growFiles t places).2.lookup? dir n = t.lookup? dir n := by
  induction places generalizing t with
  | nil => rfl
  | cons first places ih =>
    obtain ⟨hfirst, hdir⟩ := List.forall_mem_cons.1 hdir
    refine (ih hdir).trans ((lookup?_add t.drawInode.2 first.1 first.2 t.nextInode dir n).trans ?_)
    exact if_neg fun hkey => hfirst hkey.1.symm

/-! ### Measures -/

variable {s : TreeShape} {draws : Draws}

theorem validate_eq_ok_iff : s.validate = .ok () ↔
    s.depth ≠ 0 ∧ s.breadth ≠ 0 ∧ s.files ≠ 0 ∧ s.nameLength ≠ 0 := by
  unfold validate
  split
  · next hfound =>
    refine iff_of_false (fun h => nomatch h) ?_
    rintro ⟨hdepth, hbreadth, hfiles, hlength⟩
    simp [List.find?, hdepth, hbreadth, hfiles, hlength] at hfound
  · next hnone => simpa using hnone

theorem grow_of_error {e : ShapeError} (h : s.validate = .error e) (t : Tree) (draws : Draws) :
    s.grow t draws = .error e := by
  rw [grow, h]
  rfl

end TreeShape

/-! ### Whole trees -/

/-- A digit or a letter. -/
def Bytes.IsAlphanumeric (b : UInt8) : Prop :=
  48 ≤ b ∧ b ≤ 57 ∨ 65 ≤ b ∧ b ≤ 90 ∨ 97 ≤ b ∧ b ≤ 122

/-- All names that are drawn are of this length and consist of digits and letters. -/
def Draws.Alphanumeric (draws : Draws) (length : Nat) : Prop :=
  ∀ k, (draws.name k).length = length ∧ ∀ b ∈ draws.name k, Bytes.IsAlphanumeric b

/-- The names of the directories of a chain. -/
def TreeShape.chainNames (s : TreeShape) (draws : Draws) (c : Nat) : List Bytes :=
  (List.range s.depth).map fun level => draws.name (1 + c * s.depth + level)

/-- A tree was grown in these chains, and has its shape. -/
structure GrownTree.Shaped (s : TreeShape) (draws : Draws) (chains : List (List Handle))
    (g : GrownTree) (t : Tree) : Prop where
  folders_eq : g.folders = g.top :: chains.flatten
  length_folders : g.folders.length = 1 + s.breadth * s.depth
  length_chains : chains.length = s.breadth
  length_chain : ∀ chain ∈ chains, chain.length = s.depth
  /-- The top directory is where it was put. -/
  top : t.lookup? root (TreeShape.topStem ++ draws.name 0) = some g.top ∧
    t.pathOf? g.top = some (showPath [TreeShape.topStem ++ draws.name 0])
  /-- Each directory of a chain is listed in the one before it, lies as many levels below the top as
  its place in the chain says, and has the path that was drawn for it. -/
  folder : ∀ (c : Nat) (chain : List Handle) (i : Nat) (d : Handle), chains[c]? = some chain →
    chain[i]? = some d → ∃ parent climb, (g.top :: chain)[i]? = some parent ∧
      t.lookup? parent (draws.name (1 + c * s.depth + i)) = some d ∧
      t.Climbs g.top d climb ∧ climb.length = i + 1 ∧
      t.pathOf? d = some (showPath
        ((TreeShape.topStem ++ draws.name 0) :: (s.chainNames draws c).take (i + 1)))
  length_files : g.files.length = s.files
  nodup_files : g.files.Nodup
  nodup_inodes : (g.files.map t.accessor.inodeOf).Nodup
  /-- Each file is at the end of a chain, and is not one of the directories. -/
  file : ∀ f ∈ g.files, f ∉ g.folders ∧ ∃ node chain path, t.nodes[f]? = some node ∧
    chain ∈ chains ∧ chain.getLast? = some node.parent ∧ t.pathOf? f = some path ∧
      (pathComponents path).length = s.depth + 2

theorem Bytes.IsAlphanumeric.lt {b : UInt8} (h : Bytes.IsAlphanumeric b) :
    b < 0x80 ∧ b ≠ Bytes.slash := by
  simp only [Bytes.IsAlphanumeric, Bytes.slash, UInt8.le_iff_toNat_le, UInt8.lt_iff_toNat_lt, ne_eq,
    ← UInt8.toNat_inj, UInt8.reduceToNat] at h ⊢
  omega

namespace TreeShape

variable {s : TreeShape} {draws : Draws} {t : Tree} {top : Handle} {chains : List (List Handle)}
  {chain : List Handle} {place : Handle × Bytes} {c : Nat}

/-- Where files are put, and under what names. -/
def filePlaces (s : TreeShape) (draws : Draws) (top : Handle) (chains : List (List Handle)) :
    List (Handle × Bytes) :=
  let ends := chains.map fun chain => chain.getLastD top
  (List.range s.files).map fun file =>
    (ends.getD (draws.place file % ends.length) top, draws.name (1 + s.breadth * s.depth + file))

theorem length_filePlaces (s : TreeShape) (draws : Draws) (top : Handle)
    (chains : List (List Handle)) : (s.filePlaces draws top chains).length = s.files := by
  rw [filePlaces, List.length_map, List.length_range]

/-- Files are put at the ends of chains. -/
theorem exists_of_mem_filePlaces (hchains : chains ≠ [])
    (hplace : place ∈ s.filePlaces draws top chains) :
    (∃ chain ∈ chains, place.1 = chain.getLastD top) ∧ ∃ k, place.2 = draws.name k := by
  obtain ⟨file, -, rfl⟩ := List.mem_map.1 hplace
  refine ⟨?_, _, rfl⟩
  have hlt : draws.place file % (chains.map fun chain => chain.getLastD top).length <
      (chains.map fun chain => chain.getLastD top).length :=
    Nat.mod_lt _ (by simpa using List.length_pos_iff.2 hchains)
  obtain ⟨chain, hchain, hend⟩ := List.mem_map.1 (List.getElem_mem hlt)
  exact ⟨chain, hchain, by rw [hend, List.getD_eq_getElem _ _ hlt]⟩

/-- The parts that a tree grows in. -/
theorem grow_eq (hvalid : s.validate = .ok ()) (t : Tree) (draws : Draws) :
    let made := t.makeDir root (topStem ++ draws.name 0)
    let dirs := growChains made.2 made.1 ((List.range s.breadth).map (s.chainNames draws))
    let files := growFiles dirs.2 (s.filePlaces draws made.1 dirs.1)
    s.grow t draws = .ok (⟨made.1, made.1 :: dirs.1.flatten, files.1⟩, files.2) := by
  rw [grow, hvalid]
  rfl

/-- The end of a chain is as deep as a chain is long. -/
theorem getElem?_getLastD (chain : List Handle) (top : Handle) :
    (top :: chain)[chain.length]? = some (chain.getLastD top) := by
  induction chain generalizing top with
  | nil => rfl
  | cons d chain ih => exact (ih d).trans (congrArg some List.getLastD_cons.symm)

/-- The directories that a tree has before it gets files. -/
structure Laid (s : TreeShape) (draws : Draws) (t : Tree) (top : Handle)
    (chains : List (List Handle)) : Prop where
  planted : t.Planted
  plain : ∀ k, PlainName (draws.name k)
  holds_top : t.Holds root (topStem ++ draws.name 0) top
  nested : List.Forall₂ (t.Nested top) ((List.range s.breadth).map (s.chainNames draws)) chains

theorem topStem_plain : ∀ b ∈ topStem, b < 0x80 ∧ b ≠ Bytes.slash := by
  decide +kernel

theorem plain_top {name : Bytes} (h : PlainName name) : PlainName (topStem ++ name) where
  ne_nil := List.append_ne_nil_of_right_ne_nil _ h.ne_nil
  ascii b hb := (List.mem_append.1 hb).elim (fun hb => (topStem_plain b hb).1) (h.ascii b)
  slashFree hb := (List.mem_append.1 hb).elim (fun hb => (topStem_plain _ hb).2 rfl) h.slashFree

namespace Laid

variable {parent d : Handle} {i : Nat}

theorem climbs_top (h : s.Laid draws t top chains) : t.Climbs root top [top] := by
  obtain ⟨node, hnode, hparent, hname⟩ := h.holds_top.exists_node
  have hne : top ≠ root := fun heq => lt_irrefl _ (heq ▸ h.holds_top.id_lt)
  refine .step hne hnode (hname ▸ (plain_top (h.plain 0)).ne_nil) (hparent ▸ hne.symm) ?_
  rw [hparent]
  exact .top

theorem length_chains (h : s.Laid draws t top chains) : chains.length = s.breadth := by
  rw [← h.nested.length_eq, List.length_map, List.length_range]

theorem nested_of (h : s.Laid draws t top chains) (hc : chains[c]? = some chain) :
    t.Nested top (s.chainNames draws c) chain := by
  obtain ⟨hlt, rfl⟩ := List.getElem?_eq_some_iff.1 hc
  have hlt' := h.nested.length_eq ▸ hlt
  have hnested := (List.forall₂_iff_get.1 h.nested).2 c hlt' hlt
  simpa using hnested

theorem length_chain (h : s.Laid draws t top chains) (hchain : chain ∈ chains) :
    chain.length = s.depth := by
  obtain ⟨c, hc⟩ := List.mem_iff_getElem?.1 hchain
  rw [(h.nested_of hc).length_eq, chainNames, List.length_map, List.length_range]

theorem plain_chain (h : s.Laid draws t top chains) (c : Nat) :
    ∀ name ∈ s.chainNames draws c, PlainName name := by
  intro name hname
  obtain ⟨level, -, rfl⟩ := List.mem_map.1 hname
  exact h.plain _

theorem chainNames_ne_nil (h : s.Laid draws t top chains) (c : Nat) :
    ∀ name ∈ s.chainNames draws c, name ≠ [] :=
  fun name hname => (h.plain_chain c name hname).ne_nil

/-- The links lead from each directory of a chain, the top first, to the top. -/
theorem climbs (h : s.Laid draws t top chains) (hc : chains[c]? = some chain)
    (hd : (top :: chain)[i]? = some d) : t.Climbs top d (chain.take i).reverse := by
  have hclimbs := (h.nested_of hc).climbs (h.chainNames_ne_nil c) .top le_rfl hd
  rwa [List.append_nil] at hclimbs

theorem pathOf?_eq (h : s.Laid draws t top chains) (hc : chains[c]? = some chain)
    (hd : (top :: chain)[i]? = some d) :
    t.pathOf? d = some (showPath ((topStem ++ draws.name 0) :: (s.chainNames draws c).take i)) := by
  obtain ⟨node, hnode, -, hname⟩ := h.holds_top.exists_node
  rw [(h.nested_of hc).pathOf?_eq (h.chainNames_ne_nil c) h.climbs_top h.holds_top.id_lt.le hd,
    name_listing hnode, hname]

theorem exists_node (h : s.Laid draws t top chains) {g : Handle} (hg : g ∈ top :: chains.flatten) :
    ∃ node, t.nodes[g]? = some node := by
  rcases List.mem_cons.1 hg with rfl | hg
  · obtain ⟨node, hnode, -⟩ := h.holds_top.exists_node
    exact ⟨node, hnode⟩
  · obtain ⟨chain, hchain, hg⟩ := List.mem_flatten.1 hg
    obtain ⟨c, hc⟩ := List.mem_iff_getElem?.1 hchain
    obtain ⟨i, hi⟩ := List.mem_iff_getElem?.1 hg
    obtain ⟨_, _, -, -, hholds⟩ := (h.nested_of hc).holds hi
    obtain ⟨node, hnode, -⟩ := hholds.exists_node
    exact ⟨node, hnode⟩

theorem ne_new (h : s.Laid draws t top chains) {g : Handle} (hg : g ∈ top :: chains.flatten)
    (k : Nat) : g ≠ ⟨t.nextHandle + k⟩ := by
  rintro rfl
  obtain ⟨node, hnode⟩ := h.exists_node hg
  exact absurd (h.planted.growing.numbered _ node hnode) (Nat.not_lt.2 (Nat.le_add_right _ _))

/-! ### Files at the ends -/

section Files

variable (hvalid : s.validate = .ok ())
include hvalid

/-- A file is put at the end of a chain. -/
theorem exists_end (h : s.Laid draws t top chains)
    (hplace : place ∈ s.filePlaces draws top chains) :
    PlainName place.2 ∧ ∃ (c : Nat) (chain : List Handle), chains[c]? = some chain ∧
      chain.getLast? = some place.1 ∧ (top :: chain)[s.depth]? = some place.1 := by
  obtain ⟨hdepth, hbreadth, -, -⟩ := validate_eq_ok_iff.1 hvalid
  have hchains : chains ≠ [] := fun hnil => hbreadth (by rw [← h.length_chains, hnil]; rfl)
  obtain ⟨⟨chain, hchain, hend⟩, k, hname⟩ := exists_of_mem_filePlaces hchains hplace
  obtain ⟨c, hc⟩ := List.mem_iff_getElem?.1 hchain
  have hlast : (top :: chain)[s.depth]? = some place.1 := by
    rw [← h.length_chain hchain, getElem?_getLastD, hend]
  refine ⟨hname ▸ h.plain k, c, chain, hc, ?_, hlast⟩
  obtain ⟨n, hn⟩ := Nat.exists_eq_succ_of_ne_zero hdepth
  rw [List.getLast?_eq_getElem?, h.length_chain hchain, hn]
  rwa [hn] at hlast

/-- No file is put where a directory of a chain is listed. -/
theorem ne_of_place (h : s.Laid draws t top chains) (hc : chains[c]? = some chain)
    (hi : i < s.depth) (hparent : (top :: chain)[i]? = some parent)
    (hplace : place ∈ s.filePlaces draws top chains) : place.1 ≠ parent := by
  rintro rfl
  obtain ⟨-, c', chain', hc', -, hlast⟩ := h.exists_end hvalid hplace
  -- it would be at two levels below the top
  have hlength := congrArg List.length ((h.climbs hc hparent).unique (h.climbs hc' hlast))
  rw [List.length_reverse, List.length_reverse, List.length_take, List.length_take,
    h.length_chain (List.mem_of_getElem? hc), h.length_chain (List.mem_of_getElem? hc')] at hlength
  omega

theorem ne_root_of_place (h : s.Laid draws t top chains)
    (hplace : place ∈ s.filePlaces draws top chains) : place.1 ≠ root := by
  obtain ⟨-, c, chain, hc, -, hlast⟩ := h.exists_end hvalid hplace
  have hclimbs := (h.nested_of hc).climbs (h.chainNames_ne_nil c) h.climbs_top
    h.holds_top.id_lt.le hlast
  intro hroot
  rw [hroot] at hclimbs
  simpa using hclimbs.unique .top

/-- A directory keeps its place when files are added. -/
theorem folder_growFiles (h : s.Laid draws t top chains) (hc : chains[c]? = some chain)
    (hd : chain[i]? = some d) : let t' := (growFiles t (s.filePlaces draws top chains)).2
    ∃ parent climb, (top :: chain)[i]? = some parent ∧
      t'.lookup? parent (draws.name (1 + c * s.depth + i)) = some d ∧
      t'.Climbs top d climb ∧ climb.length = i + 1 ∧ t'.pathOf? d = some (showPath
        ((topStem ++ draws.name 0) :: (s.chainNames draws c).take (i + 1))) := by
  have hkept := @kept_growFiles t h.planted.growing (s.filePlaces draws top chains)
  have hlength := h.length_chain (List.mem_of_getElem? hc)
  obtain ⟨hi, -⟩ := List.getElem?_eq_some_iff.1 hd
  obtain ⟨parent, name, hparent, hname, hholds⟩ := (h.nested_of hc).holds hd
  have hdrawn : name = draws.name (1 + c * s.depth + i) := by
    rw [chainNames, List.getElem?_map, List.getElem?_range (hlength ▸ hi)] at hname
    exact (Option.some.inj hname).symm
  have hd' : (top :: chain)[i + 1]? = some d := hd
  refine ⟨parent, _, hparent, ?_, (h.climbs hc hd').of_kept fun _ _ => hkept, ?_,
    pathOf?_of_kept (h.pathOf?_eq hc hd') fun _ _ => hkept⟩
  · rw [lookup?_growFiles fun place => h.ne_of_place hvalid hc (hlength ▸ hi) hparent, ← hdrawn]
    exact hholds.listed
  · rw [List.length_reverse, List.length_take]
    omega

/-- A file is a new entry, and one level below the end of its chain. -/
theorem file_growFiles (h : s.Laid draws t top chains) {f : Handle}
    (hf : f ∈ (growFiles t (s.filePlaces draws top chains)).1) :
    let t' := (growFiles t (s.filePlaces draws top chains)).2
    f ∉ top :: chains.flatten ∧ ∃ node chain path, t'.nodes[f]? = some node ∧
      chain ∈ chains ∧ chain.getLast? = some node.parent ∧ t'.pathOf? f = some path ∧
        (pathComponents path).length = s.depth + 2 := by
  rw [fst_growFiles] at hf
  obtain ⟨k, hk, rfl⟩ := List.mem_map.1 hf
  have hplace := List.getElem?_eq_getElem (List.mem_range.1 hk)
  obtain ⟨hname, c, chain, hc, hend, hlast⟩ := h.exists_end hvalid (List.getElem_mem _)
  have hnode := nodes_growFiles h.planted.growing hplace
  have hparent := pathOf?_of_kept (h.pathOf?_eq hc hlast) fun _ _ =>
    kept_growFiles h.planted.growing (s.filePlaces draws top chains)
  have hroot : (⟨t.nextHandle + k⟩ : Handle) ≠ root := fun heq =>
    absurd (congrArg Handle.id heq)
      (h.planted.rooted.id_lt.trans_le (Nat.le_add_right _ k)).ne'
  have hmem : ∀ e ∈ top :: chain, e ∈ top :: chains.flatten := fun e he =>
    (List.mem_cons.1 he).elim (fun heq => heq ▸ List.mem_cons_self) fun he =>
      List.mem_cons_of_mem _ (List.mem_flatten_of_mem (List.mem_of_getElem? hc) he)
  have hplain : ∀ name ∈ (topStem ++ draws.name 0) :: (s.chainNames draws c).take s.depth,
      PlainName name := List.forall_mem_cons.2
    ⟨plain_top (h.plain 0), fun name hname => h.plain_chain c name (List.mem_of_mem_take hname)⟩
  have hpath := pathOf?_child hnode hroot hname.ne_nil
    (h.ne_new (hmem _ (List.mem_of_getElem? hlast)) k) hparent
  rw [joined_showPath fun name hmem => (hplain name hmem).ne_nil] at hpath
  refine ⟨fun hfolder => h.ne_new hfolder k rfl, _, chain, _, hnode, List.mem_of_getElem? hc, hend,
    hpath, ?_⟩
  rw [pathComponents_showPath (by simp)]
  · simp [chainNames]
  · intro name hmem
    rcases List.mem_append.1 hmem with hmem | hmem
    · exact hplain name hmem
    · exact List.mem_singleton.1 hmem ▸ hname

end Files

end Laid

/-! ### Growing a tree -/

/-- The directories that are grown under the root of a new tree. -/
theorem laid_growChains (hplain : ∀ k, PlainName (draws.name k)) (mount : MountId)
    (device : DeviceId) :
    let made := (new mount device).makeDir root (topStem ++ draws.name 0)
    let dirs := growChains made.2 made.1 ((List.range s.breadth).map (s.chainNames draws))
    s.Laid draws dirs.2 made.1 dirs.1 := by
  intro made dirs
  have hnew := planted_new mount device
  have hroot := (Sound.new mount device).root_eq
  have htop := hnew.holds_makeDir hroot (topStem ++ draws.name 0)
  obtain ⟨node, hnode, -⟩ := htop.exists_node
  obtain ⟨hplanted, hext, hnested⟩ := nested_growChains (hnew.makeDir hroot _) hnode
    ((List.range s.breadth).map (s.chainNames draws))
  exact ⟨hplanted, hplain, htop.mono hext, hnested⟩

/-- What is grown at the ends of chains completes the shape. -/
theorem Laid.shaped (h : s.Laid draws t top chains) (hvalid : s.validate = .ok ()) :
    GrownTree.Shaped s draws chains
      ⟨top, top :: chains.flatten, (growFiles t (s.filePlaces draws top chains)).1⟩
      (growFiles t (s.filePlaces draws top chains)).2 := by
  have hfiles := fst_growFiles t (s.filePlaces draws top chains)
  have hgrowing := h.planted.growing
  refine ⟨rfl, ?_, h.length_chains, fun chain => h.length_chain, ⟨?_, ?_⟩,
    fun c chain i d => h.folder_growFiles hvalid, ?_, ?_, ?_, fun f => h.file_growFiles hvalid⟩
  · rw [List.length_cons, List.length_flatten, List.map_congr_left fun _ => h.length_chain,
      List.map_const', List.sum_replicate, h.length_chains, smul_eq_mul, Nat.add_comm]
  · rw [lookup?_growFiles fun place => h.ne_root_of_place hvalid]
    exact h.holds_top.listed
  · obtain ⟨node, hnode, -, hname⟩ := h.holds_top.exists_node
    refine pathOf?_of_kept ?_ fun _ _ => kept_growFiles hgrowing _
    rw [h.climbs_top.pathOf?_eq, List.map_singleton, name_listing hnode, hname]
    rfl
  · show (growFiles t (s.filePlaces draws top chains)).1.length = s.files
    rw [length_growFiles, length_filePlaces]
  · show (growFiles t (s.filePlaces draws top chains)).1.Nodup
    rw [hfiles]
    exact List.nodup_range.map fun k k' heq => Nat.add_left_cancel (congrArg Handle.id heq)
  · have hinodes : (growFiles t (s.filePlaces draws top chains)).1.map
        (growFiles t (s.filePlaces draws top chains)).2.accessor.inodeOf =
          (List.range (s.filePlaces draws top chains).length).map (t.nextInode + ·) := by
      rw [hfiles, List.map_map]
      refine List.map_congr_left fun k hk => ?_
      have hplace := List.getElem?_eq_getElem (List.mem_range.1 hk)
      exact inodeOf_of (nodes_growFiles hgrowing hplace)
    rw [hinodes]
    exact List.nodup_range.map (add_right_injective t.nextInode)

/-- **The shape of a grown tree.** If no measure is zero and the names that are drawn are of the
right length and consist of digits and letters, a tree is grown on a new one, and it has its shape,
whatever was drawn: names may collide as often as they like. There are as many directories as the
measures say, each as deep as its place in its chain, where it is listed under the name that was
drawn for it; and there are as many files, all different and with different inodes, each at the end
of a chain. No tree is grown if a measure is zero: that is refused before anything is made. -/
theorem grow_shaped (s : TreeShape) (mount : MountId) (device : DeviceId) (draws : Draws) :
    (s.depth = 0 ∨ s.breadth = 0 ∨ s.files = 0 ∨ s.nameLength = 0 →
      ∃ e, ∀ t draws, s.grow t draws = .error e) ∧
    (s.depth ≠ 0 → s.breadth ≠ 0 → s.files ≠ 0 → s.nameLength ≠ 0 →
      draws.Alphanumeric s.nameLength → ∃ g t chains,
        s.grow (new mount device) draws = .ok (g, t) ∧ g.Shaped s draws chains t) := by
  constructor
  · intro hzero
    cases hvalid : s.validate with
    | error e => exact ⟨e, grow_of_error hvalid⟩
    | ok u =>
      obtain ⟨hdepth, hbreadth, hfiles, hlength⟩ := validate_eq_ok_iff.1 hvalid
      simp [hdepth, hbreadth, hfiles, hlength] at hzero
  · intro hdepth hbreadth hfiles hlength hdraws
    have hvalid : s.validate = .ok () := validate_eq_ok_iff.2 ⟨hdepth, hbreadth, hfiles, hlength⟩
    have hplain : ∀ k, PlainName (draws.name k) := fun k =>
      ⟨fun hnil => hlength (by rw [← (hdraws k).1, hnil]; rfl),
        fun b hb => ((hdraws k).2 b hb).lt.1, fun hb => ((hdraws k).2 _ hb).lt.2 rfl⟩
    exact ⟨_, _, _, grow_eq hvalid (new mount device) draws,
      (laid_growChains hplain mount device).shaped hvalid⟩

/-- All names that are drawn are the same, so that there is one chain only. -/
theorem grow_colliding :
    let s : TreeShape := ⟨2, 3, 4, 1⟩
    let draws : Draws := ⟨fun _ => [97], id⟩
    draws.Alphanumeric s.nameLength ∧ ∃ g t chains,
      s.grow (new 1 1) draws = .ok (g, t) ∧ g.Shaped s draws chains t := by
  intro s draws
  have hdraws : draws.Alphanumeric s.nameLength := fun k =>
    ⟨rfl, fun b hb => List.mem_singleton.1 hb ▸ Or.inr (Or.inr (by decide))⟩
  exact ⟨hdraws, (grow_shaped s 1 1 draws).2 (by decide) (by decide) (by decide) (by decide) hdraws⟩

end TreeShape

end FsTrace
