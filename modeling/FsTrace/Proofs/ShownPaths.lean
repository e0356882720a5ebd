import FsTrace.Proofs.ParkedCalls
import FsTrace.Proofs.PathNames
import FsTrace.Proofs.TreeChanges
import FsTrace.Record

/-!
# Paths as they are shown

How the path of an entry comes out when it was recorded and is shown again.

* `Tree.Rises`: the entries from a given one up to the root, which is left out; every entry with a
  path has them (`Tree.exists_rises`);
* `Emission.showPath_eq`: what is shown of a path up to the root, whose slash is not doubled, is how
  a tree writes it;
* `Tree.Fits`: the path is short enough for one ascent and for a buffer;
* `Tree.showPath_resolve`: then the recorded bytes are shown as the path of the entry.
-/

namespace FsTrace

/-! ### Joining names -/

theorem Text.toList_lossy (bs : Bytes) : (Text.lossy bs).toList = Text.decodeLossy bs :=
  String.toList_ofList

/-- The root's slash is not doubled. -/
theorem Emission.joinNames_root (names : List (List Char)) :
    joinNames (['/'] :: names) = '/' :: ['/'].intercalate names := by
  cases names <;> rfl

theorem Tree.toList_showPath (names : List Bytes) :
    (Tree.showPath names).toList = '/' :: ['/'].intercalate (names.map Text.decodeLossy) := by
  have htexts : (names.map Text.lossy).map String.toList = names.map Text.decodeLossy := by
    rw [List.map_map]
    exact List.map_congr_left fun name _ => Text.toList_lossy name
  rw [Tree.showPath, String.toList_append, String.toList_intercalate, htexts]
  rfl

theorem Text.decodeLossy_slash : Text.decodeLossy [Bytes.slash] = ['/'] := by
  have hfirst : Text.decodeFirst Bytes.slash [] = ('/', 0) := rfl
  simp only [Text.decodeLossy, hfirst, List.drop_nil]

/-- A path whose last segment is the root's is shown as the path that the others make. -/
theorem Emission.showPath_eq {path : Bytes} {names : List Bytes}
    (h : Bytes.segments path = names ++ [[Bytes.slash]]) (e : Endpoint) :
    showPath e path = Tree.showPath names.reverse := by
  have hpath : path.isEmpty = false := by
    rw [List.isEmpty_eq_false_iff]
    rintro rfl
    simp [Bytes.segments, Bytes.pieces] at h
  have hchars : ((Bytes.segments path).map Text.decodeLossy).reverse =
      ['/'] :: names.reverse.map Text.decodeLossy := by
    rw [h, List.map_append, List.map_singleton, Text.decodeLossy_slash, List.reverse_append,
      List.map_reverse]
    rfl
  rw [← String.toList_inj, Tree.toList_showPath, showPath, if_neg (by simp [hpath]), hchars,
    Emission.joinNames_root, String.toList_ofList]

namespace Tree

variable {t : Tree} {d : Handle} {node : Node} {below below' : List Node} {names : List Bytes}
  {inode : Inode} {steps depth : Nat} {path : String}

/-! ### Up to the root -/

/-- The parent links of an entry lead through these entries, itself first, to the root. -/
inductive Rises (t : Tree) : Handle → List Node → Prop
  | root : Rises t root []
  | step {d : Handle} {node : Node} {above : List Node} :
    d ≠ root → t.nodes[d]? = some node → Rises t node.parent above → Rises t d (node :: above)

theorem Rises.unique (h : t.Rises d below) (h' : t.Rises d below') : below = below' := by
  induction h generalizing below' with
  | root =>
    cases h' with
    | root => rfl
    | step hd => exact absurd rfl hd
  | step hd hnode _ ih =>
    cases h' with
    | root => exact absurd rfl hd
    | step _ hnode' habove =>
      obtain rfl := Option.some.inj (hnode.symm.trans hnode')
      rw [ih habove]

/-- An entry with a path rises to the root, through entries that all have names. -/
theorem exists_rises (h : t.namesToRoot? d steps = some names) :
    ∃ below, t.Rises d below ∧ names = below.map (·.name) ∧ ∀ node ∈ below, node.name ≠ [] := by
  induction steps generalizing d names with
  | zero =>
    rcases namesToRoot?_cases h with ⟨rfl, rfl⟩ | ⟨n, _, _, hn, -⟩
    · exact ⟨[], .root, rfl, by simp⟩
    · exact absurd hn (Nat.succ_ne_zero n).symm
  | succ steps ih =>
    rcases namesToRoot?_cases h with
      ⟨rfl, rfl⟩ | ⟨n, node, above, hn, hd, hnode, hname, -, habove, rfl⟩
    · exact ⟨[], .root, rfl, by simp⟩
    · obtain rfl := Nat.succ.inj hn
      obtain ⟨below, hrises, rfl, hnames⟩ := ih habove
      exact ⟨node :: below, .step hd hnode hrises, rfl, List.forall_mem_cons.2 ⟨hname, hnames⟩⟩

/-- The entries up to the root can all be visited in one ascent, and their names be written and told
apart. -/
structure Fits (t : Tree) (below : List Node) : Prop where
  /-- With the root, no more entries than one ascent visits. -/
  length_lt : below.length < maxPathDepth
  nulFree : ∀ node ∈ below, 0 ∉ node.name
  length_name_lt : ∀ node ∈ below, node.name.length < nameSize
  head_ne : ∀ node ∈ below, node.name.head? ≠ some Bytes.slash
  /-- No entry has the inode of its parent. -/
  inode_ne : ∀ node ∈ below, node.inode ≠ t.accessor.inodeOf node.parent
  /-- All names find room, each with a NUL, and leave room for another of any length. -/
  sum_le : (below.map (·.name.length + 1)).sum ≤ 8192

theorem names_good (h : ∀ node ∈ below, GoodName node.name) :
    ∀ name ∈ below.map (·.name) ++ [[Bytes.slash]],
      name ≠ [] ∧ 0 ∉ name ∧ name.length < nameSize := by
  intro name hname
  rcases List.mem_append.1 hname with hname | hname
  · obtain ⟨node, hnode, rfl⟩ := List.mem_map.1 hname
    exact ⟨(h node hnode).ne_nil, (h node hnode).nulFree, (h node hnode).length_lt⟩
  · rw [List.mem_singleton.1 hname]
    decide

/-- An ascent from an entry ends with the root, and reads the names in between. -/
theorem climb_of_rises (hroot : t.nodes[root]? = some ⟨[Bytes.slash], root, inode⟩)
    (h : t.Rises d below) (hnames : ∀ node ∈ below, GoodName node.name)
    (hinodes : ∀ node ∈ below, node.inode ≠ t.accessor.inodeOf node.parent)
    (hdepth : below.length < depth) (buffer : NameBuffer) :
    Ascends (climb (.still t.accessor) d buffer depth) ∧
      (climb (.still t.accessor) d buffer depth).map (·.name) =
        below.map (·.name) ++ [[Bytes.slash]] := by
  induction h generalizing depth buffer with
  | root =>
    obtain ⟨depth, rfl⟩ := Nat.exists_eq_succ_of_ne_zero (Nat.ne_zero_of_lt hdepth)
    have hslash : [Bytes.slash].length < nameSize := by decide
    have hboundary : (readLevel t.accessor root buffer).1.isBoundary = true := by
      rw [fst_readLevel_of hroot hslash]
      simp [Level.isBoundary]
    rw [climb_still, if_pos hboundary]
    refine ⟨.boundary hboundary, ?_⟩
    rw [fst_readLevel_of hroot hslash]
    rfl
  | @step d node above hd hnode _ ih =>
    obtain ⟨depth, rfl⟩ := Nat.exists_eq_succ_of_ne_zero (Nat.ne_zero_of_lt hdepth)
    obtain ⟨hname, hnames⟩ := List.forall_mem_cons.1 hnames
    obtain ⟨hinode, hinodes⟩ := List.forall_mem_cons.1 hinodes
    have hlevel := fst_readLevel_of hnode hname.length_lt buffer
    have hinner : (readLevel t.accessor d buffer).1.isBoundary = false := by
      -- an entry that is its own parent would have the inode of its parent
      have hparent : node.parent ≠ d := fun hself =>
        hinode (by rw [hself, inodeOf_of hnode])
      rw [hlevel]
      simp [Level.isBoundary, hparent, hinode, hname.ne_nil, hname.head_ne]
    rw [climb_still, if_neg (ne_true_of_eq_false hinner), hlevel]
    obtain ⟨hascends, habove⟩ := ih hnames hinodes (Nat.lt_of_succ_lt_succ hdepth)
      (readLevel t.accessor d buffer).2
    refine ⟨?_, by rw [List.map_cons, habove]; rfl⟩
    obtain ⟨next, rest, hrest⟩ := hascends.exists_cons
    rw [hrest] at hascends ⊢
    exact .step (hlevel ▸ hinner) (inode_of_climb hrest).symm hascends

/-- **Paths as they are shown.** The root is named `/` and is its own parent, an entry has a path,
and the entries up to the root fit. Then the path is recorded as a whole; its segments are the names
from the entry up, with that of the root at the end; and what is shown for the bytes is the path. -/
theorem showPath_resolve (hroot : t.nodes[root]? = some ⟨[Bytes.slash], root, inode⟩)
    (hpath : t.pathOf? d = some path) (hrises : t.Rises d below) (hfits : t.Fits below)
    {paths : PathBuffer} (hempty : paths.filled = []) (drawn : DrawnKey) (leaf : Location)
    (e : Endpoint) :
    let written := Resolver.inlineBuffer.resolve (.still t.accessor) drawn paths d leaf
    written.truncated = false ∧
      Bytes.segments written.paths.filled = below.map (·.name) ++ [[Bytes.slash]] ∧
      Emission.showPath e written.paths.filled = path := by
  intro written
  obtain ⟨hfilled, htruncated⟩ : written.paths.filled = _ ∧ written.truncated = _ :=
    Resolver.resolve_inlineBuffer hempty
  -- a path has names only
  obtain ⟨names, hnames, rfl⟩ := Option.map_eq_some_iff.1 hpath
  obtain ⟨below', hrises', rfl, hne⟩ := exists_rises hnames
  obtain rfl := hrises.unique hrises'
  have hgood : ∀ node ∈ below, GoodName node.name := fun node hnode =>
    ⟨hne node hnode, hfits.nulFree node hnode, hfits.length_name_lt node hnode,
      hfits.head_ne node hnode⟩
  obtain ⟨hascends, hlevels⟩ : Ascends (ascent (.still t.accessor) d) ∧
      (ascent (.still t.accessor) d).map (·.name) = below.map (·.name) ++ [[Bytes.slash]] :=
    climb_of_rises hroot hrises hgood hfits.inode_ne hfits.length_lt _
  have hroom : 0 + (((ascent (.still t.accessor) d).map (·.name)).dropLast.map
      (·.length + 1)).sum + nameSize ≤ min pathBufferSize pathBufferSize := by
    rw [hlevels, List.dropLast_concat, List.map_map, Nat.zero_add, Nat.min_self]
    exact Nat.add_le_add_right hfits.sum_le nameSize
  have hwhole := hascends.cutShort_eq hroom
  have hread : ∀ name ∈ (ascent (.still t.accessor) d).map (·.name),
      name ≠ [] ∧ 0 ∉ name ∧ name.length < nameSize := hlevels ▸ names_good hgood
  have hsegments : Bytes.segments written.paths.filled =
      below.map (·.name) ++ [[Bytes.slash]] := by
    rw [hfilled, segments_pathBytes fun level hlevel => (hread _ (List.mem_map_of_mem hlevel)).2,
      hascends.pathNames_eq hwhole fun hmem => (hread _ hmem).1 rfl, hlevels]
  exact ⟨htruncated.trans hwhole, hsegments, Emission.showPath_eq hsegments e⟩

/-- An entry inside another one, with a name that is no text. -/
def nested : Tree := (((Tree.new 1 1).makeFile root [97]).2.makeFile ⟨2⟩ [98, 255]).2

theorem nodes_nested :
    nested.nodes[root]? = some ⟨[Bytes.slash], root, rootInode⟩ ∧
      nested.nodes[(⟨2⟩ : Handle)]? = some ⟨[97], root, 3⟩ ∧
      nested.nodes[(⟨3⟩ : Handle)]? = some ⟨[98, 255], ⟨2⟩, 4⟩ := by
  have hnodes : nested.nodes = (((∅ : Std.HashMap Handle Node).insert root
      ⟨[Bytes.slash], root, rootInode⟩).insert ⟨2⟩ ⟨[97], root, 3⟩).insert ⟨3⟩
        ⟨[98, 255], ⟨2⟩, 4⟩ := rfl
  simp only [hnodes, getElem?_insert_node]
  decide

theorem pathOf?_nested : nested.pathOf? ⟨3⟩ = some "/a/b\uFFFD" := by
  obtain ⟨-, hdir, hfile⟩ := nodes_nested
  have hsize : 1 ≤ nested.size :=
    calc 1 = (Tree.new 1 1).size := (size_new 1 1).symm
      _ ≤ ((Tree.new 1 1).makeFile root [97]).2.size := Std.HashMap.size_le_size_insert
      _ ≤ nested.size := Std.HashMap.size_le_size_insert
  obtain ⟨steps, hsteps⟩ := Nat.exists_eq_add_of_le' hsize
  have hnames : nested.namesToRoot? ⟨3⟩ (nested.size + 1) = some [[98, 255], [97]] := by
    rw [hsteps, namesToRoot?_of_node hfile (by decide) (by decide) (by decide),
      namesToRoot?_of_node hdir (by decide) (by decide) (by decide), namesToRoot?_root]
    rfl
  have hshown : showPath [[97], [98, 255]] = "/a/b\uFFFD" := by
    have hdirectory : Text.decodeFirst 97 [] = ('a', 0) := rfl
    have hletter : Text.decodeFirst 98 [255] = ('b', 0) := rfl
    have hnoText : Text.decodeFirst 255 [] = ('\uFFFD', 0) := rfl
    rw [← String.toList_inj, toList_showPath]
    simp only [List.map_cons, List.map_nil, Text.decodeLossy, hdirectory, hletter, hnoText,
      List.drop_nil, List.drop_zero]
    rfl
  rw [pathOf?, hnames]
  exact congrArg some hshown

/-- For what is no text a replacement is shown, as in the path of the entry. -/
theorem showPath_resolve_nested :
    let written := Resolver.inlineBuffer.resolve (.still nested.accessor) (Probe.plain.drawn 0)
      .empty ⟨3⟩ .nowhere
    written.truncated = false ∧
      Bytes.segments written.paths.filled = [[98, 255], [97], [Bytes.slash]] ∧
      Emission.showPath {} written.paths.filled = "/a/b\uFFFD" := by
  obtain ⟨hroot, hdir, hfile⟩ := nodes_nested
  have hrises : nested.Rises ⟨3⟩ [⟨[98, 255], ⟨2⟩, 4⟩, ⟨[97], root, 3⟩] :=
    .step (by decide) hfile (.step (by decide) hdir .root)
  have hfits : nested.Fits [⟨[98, 255], ⟨2⟩, 4⟩, ⟨[97], root, 3⟩] := by
    refine ⟨by decide, by decide, by decide, by decide, ?_, by decide⟩
    simp [inodeOf_of hroot, inodeOf_of hdir, rootInode]
  exact showPath_resolve hroot pathOf?_nested hrises hfits rfl (Probe.plain.drawn 0) .nowhere {}

end Tree

end FsTrace
