import FsTrace.Proofs.ConnectedEntries
import FsTrace.Proofs.ListedEntries
import FsTrace.Proofs.ShownPaths

/-!
# Moving a directory with all that is in it

An entry is moved by changing its parent and its name, and by listing it elsewhere. All that is
below it comes along, as the parent links below it stay as they are. What was in the new place
before is gone, and can be a directory that the entry was in.

* `Tree.Within`: an entry is a given one, or below it;
* `Tree.Rooted`: what holds of the root as long as it is not moved, with one lemma for each call;
* `Tree.Edit.Ordinary`: the root is not moved, and no entry loses its name;
* `Tree.joined`: a path with one more name;
* `Tree.Moved`: what is different after an entry was moved, and what is not;
  `Tree.edited_rename_moved`: that is what moving an entry does.
-/

namespace FsTrace

namespace Tree

variable {t t' : Tree} {d e parent dir : Handle} {name n : Bytes} {node other : Node}
  {chain : List Handle} {names below : List Bytes} {path : String}

/-! ### Below an entry -/

/-- An entry is `d` or below it: the parent links lead from it to `d`. -/
inductive Within (t : Tree) (d : Handle) : Handle → Prop
  | self : Within t d d
  | inside {e : Handle} {node : Node} :
    t.nodes[e]? = some node → Within t d node.parent → Within t d e

namespace Climbs

theorem within (h : t.Climbs d e chain) : t.Within d e := by
  induction h with
  | top => exact .self
  | step _ hnode _ _ _ ih => exact .inside hnode ih

theorem within_of_mem (h : t.Climbs root e chain) (hd : d ∈ chain) : t.Within d e := by
  obtain ⟨_, _, -, hbelow, -⟩ := h.exists_append hd
  exact hbelow.within

end Climbs

/-- The parent links of entries that are as they were, and of all entries above them, still lead to
the root or still do not. -/
theorem pathOf?_congr (kept : Handle → Prop) (hkept : ∀ e, kept e → t'.nodes[e]? = t.nodes[e]?)
    (hparent : ∀ e node, kept e → t.nodes[e]? = some node → kept node.parent) (he : kept e) :
    t'.pathOf? e = t.pathOf? e := by
  have hclimbs : ∀ {t t' : Tree}, (∀ e, kept e → t'.nodes[e]? = t.nodes[e]?) →
      (∀ e node, kept e → t.nodes[e]? = some node → kept node.parent) →
      ∀ {e : Handle} {chain : List Handle}, t.Climbs root e chain → kept e →
        t'.Climbs root e chain ∧ chain.map t'.listing.name = chain.map t.listing.name := by
    intro t t' hkept hparent e chain h
    induction h with
    | top => exact fun _ => ⟨.top, rfl⟩
    | @step e node above hroot hnode hname hself _ ih =>
      intro he
      obtain ⟨habove, hnames⟩ := ih (hparent e node he hnode)
      refine ⟨.step hroot ((hkept e he).trans hnode) hname hself habove, ?_⟩
      rw [List.map_cons, List.map_cons, hnames, name_listing_congr (hkept e he)]
  refine Option.ext fun path => ⟨fun hpath => ?_, fun hpath => ?_⟩
  · obtain ⟨chain, hchain, rfl⟩ := exists_climbs hpath
    obtain ⟨hbefore, hnames⟩ := hclimbs (fun e he => (hkept e he).symm)
      (fun e node he hnode => hparent e node he ((hkept e he).symm.trans hnode)) hchain he
    rw [hbefore.pathOf?_eq, hnames]
  · obtain ⟨chain, hchain, rfl⟩ := exists_climbs hpath
    obtain ⟨hafter, hnames⟩ := hclimbs hkept hparent hchain he
    rw [hafter.pathOf?_eq, hnames]

/-! ### The root -/

/-- The root stays its own parent, and is in no directory. -/
structure Rooted (t : Tree) : Prop where
  id_lt : root.id < t.nextHandle
  parent_eq : ∀ node, t.nodes[root]? = some node → node.parent = root
  not_listed : ∀ dir name, t.lookup? dir name ≠ some root

namespace Rooted

theorem new (mount : MountId) (device : DeviceId) : (Tree.new mount device).Rooted where
  id_lt := Nat.lt_succ_self _
  parent_eq node hnode := by
    rw [Tree.new, Std.HashMap.getElem?_insert_self] at hnode
    rw [← Option.some.inj hnode]
  not_listed dir name := by simp [lookup?, Tree.new]

theorem add (h : t.Rooted) (parent : Handle) (name : Bytes) (inode : Inode) :
    (t.add parent name inode).2.Rooted := by
  have hold : root ≠ ⟨t.nextHandle⟩ := fun heq => h.id_lt.ne (congrArg Handle.id heq)
  refine ⟨h.id_lt.trans (Nat.lt_succ_self _), fun node hnode => ?_, fun dir n hlisted => ?_⟩
  · rw [nodes_add, if_neg hold] at hnode
    exact h.parent_eq node hnode
  · rw [lookup?_add] at hlisted
    split at hlisted
    · exact hold (Option.some.inj hlisted).symm
    · exact h.not_listed dir n hlisted

theorem drawInode (h : t.Rooted) : t.drawInode.2.Rooted := ⟨h.id_lt, h.parent_eq, h.not_listed⟩

theorem makeFile (h : t.Rooted) (parent : Handle) (name : Bytes) :
    (t.makeFile parent name).2.Rooted :=
  h.drawInode.add parent name t.nextInode

theorem makeDir (h : t.Rooted) (parent : Handle) (name : Bytes) :
    (t.makeDir parent name).2.Rooted := by
  cases hlookup : t.lookup? parent name with
  | none =>
    rw [makeDir_of_none hlookup]
    exact h.makeFile parent name
  | some existing =>
    unfold Tree.makeDir
    rwa [hlookup]

theorem makeDirsIn (h : t.Rooted) (dir : Handle) (names : List Bytes) :
    (t.makeDirsIn dir names).2.Rooted := by
  induction names generalizing t dir with
  | nil => exact h
  | cons name names ih => exact ih (h.makeDir dir name) _

/-- An entry keeps its parent, and nothing new is listed. -/
theorem change (h : t.Rooted) (hnode : t.nodes[d]? = some node) (hput : t.Puts d other t')
    (hparent : other.parent = node.parent)
    (hlisted : ∀ dir n e, t'.lookup? dir n = some e → t.lookup? dir n = some e) : t'.Rooted where
  id_lt := h.id_lt.trans_le hput.nextHandle_le
  parent_eq node' hnode' := by
    rw [hput.nodes_eq] at hnode'
    split at hnode'
    · next hroot =>
      obtain rfl := Option.some.inj hnode'
      rw [hparent, h.parent_eq node (hroot ▸ hnode)]
    · exact h.parent_eq node' hnode'
  not_listed dir n hroot := h.not_listed dir n (hlisted dir n root hroot)

theorem instantiate (h : t.Rooted) (d : Handle) : (t.instantiate d).2.Rooted := by
  cases hnode : t.nodes[d]? with
  | none =>
    rw [instantiate_of_none hnode]
    exact h.drawInode
  | some node =>
    refine h.change hnode (puts_instantiate hnode) rfl fun dir n e hlisted => ?_
    simpa [Tree.instantiate, Tree.drawInode, hnode, setInode, lookup?] using hlisted

theorem link (h : t.Rooted) (existing target : Handle) : (t.link existing target).2.Rooted := by
  cases hnode : t.nodes[existing]? with
  | none => rwa [link_of_none (Or.inl hnode)]
  | some node =>
    cases hother : t.nodes[target]? with
    | none => rwa [link_of_none (Or.inr hother)]
    | some other =>
      refine h.change hother (puts_link hnode hother) rfl fun dir n e hlisted => ?_
      rwa [link_eq hnode hother] at hlisted

theorem unlink (h : t.Rooted) (d : Handle) : (t.unlink d).Rooted := by
  cases hnode : t.nodes[d]? with
  | none => rwa [unlink_of_none hnode]
  | some node =>
    refine h.change hnode (puts_unlink hnode) rfl fun dir n e hlisted => ?_
    simp only [Tree.unlink, hnode] at hlisted
    exact (lookup?_of_dropChild hlisted).1

theorem forget (h : t.Rooted) (d : Handle) : (t.forget d).Rooted := by
  refine ⟨(fields_forget t d).1 ▸ h.id_lt, fun node hnode => ?_, fun dir n hlisted => ?_⟩
  · rw [nodes_forget] at hnode
    split at hnode
    · cases hnode
    · exact h.parent_eq node hnode
  · cases hnode : t.nodes[d]? with
    | none => exact h.not_listed dir n (forget_of_none hnode ▸ hlisted)
    | some node =>
      simp only [Tree.forget, hnode] at hlisted
      exact h.not_listed dir n (lookup?_of_dropChild hlisted).1

theorem rename (h : t.Rooted) (hd : d ≠ root) (parent : Handle) (name : Bytes) :
    (t.rename d parent name).Rooted := by
  cases hnode : t.nodes[d]? with
  | none => rwa [rename_of_none hnode]
  | some node =>
    obtain ⟨nodes, hrename, hnodes⟩ := rename_eq hnode parent name
    rw [hrename]
    refine ⟨h.id_lt, fun node' hnode' => ?_, fun dir n hlisted => ?_⟩
    · change nodes[root]? = some node' at hnode'
      rw [hnodes, if_neg hd.symm] at hnode'
      split at hnode'
      · cases hnode'
      · exact h.parent_eq node' hnode'
    · replace hlisted := (lookup?_insert _).symm.trans hlisted
      split at hlisted
      · exact hd (Option.some.inj hlisted)
      · exact h.not_listed dir n (lookup?_of_dropChild hlisted).1

end Rooted

/-! ### Trees that have always been in order -/

/-- A call that neither moves the root nor takes the name of an entry. -/
def Edit.Ordinary : Edit → Prop
  | .rename d _ _ => d ≠ root
  | .disconnect _ => False
  | _ => True

theorem Rooted.edit (h : t.Rooted) {c : Edit} (hc : c.Ordinary) : (t.edit c).Rooted := by
  cases c with
  | makeDir parent name => exact h.makeDir parent name
  | makeDirs path => exact h.makeDirsIn root path.components
  | makeFile parent name => exact h.makeFile parent name
  | makeNegative parent name => exact h.add parent name 0
  | instantiate d => exact h.instantiate d
  | link existing target => exact h.link existing target
  | rename d parent name => exact h.rename hc parent name
  | unlink d => exact h.unlink d
  | forget d => exact h.forget d
  | disconnect d => exact hc.elim

theorem edited_ordered (mount : MountId) (device : DeviceId) {edits : List Edit}
    (hedits : ∀ c ∈ edits, c.Ordinary) :
    ((new mount device).edited edits).Current ∧ ((new mount device).edited edits).Rooted := by
  induction edits using List.reverseRecOn with
  | nil => exact ⟨current_new mount device, .new mount device⟩
  | append_singleton edits c ih =>
    obtain ⟨hcurrent, hrooted⟩ := ih fun c hmem => hedits c (List.mem_append_left _ hmem)
    have hc : c.Ordinary := hedits c (by simp)
    rw [edited_concat]
    refine ⟨hcurrent.edit ((Numbered.new mount device).edited edits) c ?_, hrooted.edit hc⟩
    rintro d rfl
    exact hc.elim

theorem Rooted.eq_of_within_root (h : t.Rooted) (hd : t.Within d root) : d = root := by
  obtain ⟨e, he⟩ : ∃ e, e = root := ⟨_, rfl⟩
  rw [← he] at hd
  induction hd with
  | self => exact he
  | inside hnode _ ih => exact ih (h.parent_eq _ (he ▸ hnode))

/-- The links of an entry lead to the root through all that the entry is below. -/
theorem Climbs.mem_of_within (h : t.Climbs root e chain) (hrooted : t.Rooted) (hd : d ≠ root)
    (hwithin : t.Within d e) : d ∈ chain := by
  induction h with
  | top => exact absurd (hrooted.eq_of_within_root hwithin) hd
  | step _ hnode _ _ _ ih =>
    cases hwithin with
    | self => exact List.mem_cons_self
    | inside hnode' hparent =>
      obtain rfl := Option.some.inj (hnode.symm.trans hnode')
      exact List.mem_cons_of_mem _ (ih hparent)

/-! ### Paths that go on -/

/-- A path with one more name. -/
def joined (above : String) (name : Bytes) : String :=
  (if above = "/" then "" else above) ++ "/" ++ Text.lossy name

theorem showPath_append (hnames : names ≠ []) (hbelow : below ≠ []) :
    showPath (names ++ below) = showPath names ++ showPath below := by
  rw [showPath, List.map_append,
    String.intercalate_append_of_ne_nil (by simpa using hnames) (by simpa using hbelow)]
  simp only [showPath, String.append_assoc]

/-- What names add to a path does not depend on the path. -/
theorem exists_showPath_append (below : List Bytes) :
    ∃ rest, ∀ names, names ≠ [] → showPath (names ++ below) = showPath names ++ rest := by
  by_cases hbelow : below = []
  · exact ⟨"", fun names _ => by simp [hbelow]⟩
  · exact ⟨showPath below, fun _ hnames => showPath_append hnames hbelow⟩

theorem showPath_ne (hname : name ≠ []) (names : List Bytes) : showPath (name :: names) ≠ "/" := by
  intro h
  obtain ⟨b, rest, rfl⟩ := List.exists_cons_of_ne_nil hname
  have hchars := congrArg String.toList h
  rw [toList_showPath, List.map_cons, Text.decodeLossy] at hchars
  cases names <;> simp [List.intercalate] at hchars

theorem joined_showPath (hnames : ∀ name ∈ names, name ≠ []) (n : Bytes) :
    joined (showPath names) n = showPath (names ++ [n]) := by
  cases names with
  | nil =>
    have hroot : showPath [] = "/" := by simp [showPath]
    rw [joined, if_pos hroot]
    simp [showPath]
  | cons name names =>
    have hname : name ≠ [] := hnames name List.mem_cons_self
    have hone : showPath [n] = "/" ++ Text.lossy n := by simp [showPath]
    rw [joined, if_neg (showPath_ne hname names),
      showPath_append (List.cons_ne_nil _ _) (List.cons_ne_nil _ _), hone, String.append_assoc]

/-! ### Moving an entry -/

/-- What is different after `d` was moved to the directory `p`, which has this path, under the name
`n`, and what is not. -/
structure Moved (t : Tree) (d p : Handle) (path : String) (n : Bytes) (t' : Tree) : Prop where
  /-- The entry has the path of its new directory, joined with its new name. -/
  pathOf?_self : t'.pathOf? d = some (joined path n)
  /-- What was below the entry is below it in its new place. -/
  pathOf?_within : ∀ e old, t.pathOf? e = some old → t.Within d e → ∃ above rest,
    t.pathOf? d = some above ∧ old = above ++ rest ∧ t'.pathOf? e = some (joined path n ++ rest)
  /-- What was neither below the entry nor below the one in its new place keeps its path, or still
  has none. -/
  pathOf?_other : ∀ e, ¬ t.Within d e → (∀ r, t.lookup? p n = some r → ¬ t.Within r e) →
    t'.pathOf? e = t.pathOf? e
  lookup?_self : t'.lookup? p n = some d
  /-- The entry is listed nowhere else. -/
  unique_lookup? : ∀ dir m, t'.lookup? dir m = some d → dir = p ∧ m = n
  lookup?_other : ∀ dir m, ¬ (dir = p ∧ m = n) → t.lookup? dir m ≠ some d →
    t'.lookup? dir m = t.lookup? dir m
  /-- Another entry that was in the new place is gone. -/
  nodes_replaced : ∀ r, r ≠ d → t.lookup? p n = some r → t'.nodes[r]? = none
  nodes_other : ∀ e, e ≠ d → t.lookup? p n ≠ some e → t'.nodes[e]? = t.nodes[e]?
  /-- All entries that are left have the inodes that they had. -/
  inode_eq : ∀ (e : Handle) (node' : Node), t'.nodes[e]? = some node' →
    ∃ node, t.nodes[e]? = some node ∧ node'.inode = node.inode

section Rename

variable {p r : Handle} {above : List Handle}

theorem lookup?_dropChild (t : Tree) (parent : Handle) (name : Bytes) (d dir : Handle) (m : Bytes) :
    (t.dropChild parent name d).lookup? dir m =
      if dir = parent ∧ m = name ∧ t.lookup? parent name = some d then none
      else t.lookup? dir m := by
  unfold dropChild
  split
  · next hlisted =>
    show (t.children.erase (parent, name))[(dir, m)]? = _
    rw [Std.HashMap.getElem?_erase]
    by_cases hkey : dir = parent ∧ m = name
    · obtain ⟨rfl, rfl⟩ := hkey
      simp [hlisted]
    · have hother : ¬ ((parent, name) == (dir, m)) = true := fun heq => by
        obtain ⟨hparent, hname⟩ := Prod.mk.inj (beq_iff_eq.1 heq)
        exact hkey ⟨hparent.symm, hname.symm⟩
      rw [if_neg hother, if_neg fun h => hkey ⟨h.1, h.2.1⟩]
      rfl
  · next hlisted => rw [if_neg fun h => hlisted h.2.2]

theorem nodes_rename (hnode : t.nodes[d]? = some node) (p : Handle) (n : Bytes) (e : Handle) :
    (t.rename d p n).nodes[e]? =
      if e = d then some { node with name := n, parent := p }
      else if t.lookup? p n = some e then none else t.nodes[e]? := by
  obtain ⟨nodes, hrename, hnodes⟩ := rename_eq hnode p n
  rw [hrename]
  show nodes[e]? = _
  rw [hnodes]
  by_cases he : e = d
  · rw [if_pos he, if_pos he]
  · rw [if_neg he, if_neg he, lookup?_dropChild]
    split
    · next hold =>
      -- the entry itself was listed in its new place
      obtain ⟨rfl, rfl, hlisted⟩ := hold
      rw [hlisted, if_neg (Option.some_ne_none e).symm,
        if_neg fun h => he (Option.some.inj h).symm]
    · rfl

theorem lookup?_rename (hcurrent : t.Current) (hnode : t.nodes[d]? = some node) (p : Handle)
    (n : Bytes) (dir : Handle) (m : Bytes) :
    (t.rename d p n).lookup? dir m =
      if dir = p ∧ m = n then some d
      else if t.lookup? dir m = some d then none else t.lookup? dir m := by
  obtain ⟨nodes, hrename, -⟩ := rename_eq hnode p n
  rw [hrename]
  refine (lookup?_insert _).trans (if_congr Iff.rfl rfl ?_)
  show (t.dropChild node.parent node.name d).lookup? dir m = _
  rw [lookup?_dropChild]
  refine if_congr ⟨?_, fun hlisted => ?_⟩ rfl rfl
  · rintro ⟨rfl, rfl, hlisted⟩
    exact hlisted
  · obtain ⟨rfl, rfl⟩ := hcurrent.eq_of_lookup? hnode hlisted
    exact ⟨rfl, rfl, hlisted⟩

/-- No entry in a directory is above it. -/
theorem Climbs.not_mem_of_parent (h : t.Climbs root p above) (hnode : t.nodes[r]? = some node)
    (hparent : node.parent = p) : r ∉ above := by
  intro hr
  obtain ⟨_, rest, happend, -, hrest⟩ := h.exists_append hr
  cases hrest with
  | top => exact (h.exists_node_of_mem hr).1 rfl
  | step _ hnode' _ _ hrest =>
    obtain rfl := Option.some.inj (hnode.symm.trans hnode')
    rw [hparent] at hrest
    have hlength := congrArg List.length (happend.trans (by rw [hrest.unique h]))
    rw [List.length_append, List.length_cons] at hlength
    omega

/-- The directories above the new place are as they were. -/
theorem Climbs.rename (h : t.Climbs root p above) (hcurrent : t.Current)
    (hnode : t.nodes[d]? = some node) (hd : d ≠ root) (hdp : ¬ t.Within d p) (hn : n ≠ []) :
    (t.rename d p n).Climbs root d (d :: above) ∧
      (d :: above).map (t.rename d p n).listing.name = n :: above.map t.listing.name := by
  have hkept : ∀ e ∈ above, (t.rename d p n).nodes[e]? = t.nodes[e]? := by
    intro e he
    have hed : e ≠ d := fun heq => hdp (h.within_of_mem (heq ▸ he))
    rw [nodes_rename hnode, if_neg hed, if_neg]
    intro hlisted
    obtain ⟨other, hother, hparent, -⟩ := hcurrent p n e hlisted
    exact h.not_mem_of_parent hother hparent he
  have hself : (t.rename d p n).nodes[d]? = some { node with name := n, parent := p } := by
    rw [nodes_rename hnode, if_pos rfl]
  refine ⟨.step hd hself hn (fun hpd : p = d => hdp (hpd ▸ .self)) (h.congr hkept), ?_⟩
  rw [List.map_cons, name_listing hself]
  exact congrArg (n :: ·) (List.map_congr_left fun e he => name_listing_congr (hkept e he))

/-- What is between an entry and the moved one is as it was. -/
theorem Climbs.rename_below (h : t.Climbs d e chain) (hcurrent : t.Current)
    (hnode : t.nodes[d]? = some node) (hdp : ¬ t.Within d p) :
    (t.rename d p n).Climbs d e chain ∧
      chain.map (t.rename d p n).listing.name = chain.map t.listing.name := by
  have hkept : ∀ e ∈ chain, (t.rename d p n).nodes[e]? = t.nodes[e]? := by
    intro e he
    obtain ⟨hed, -⟩ := h.exists_node_of_mem he
    rw [nodes_rename hnode, if_neg hed, if_neg]
    intro hlisted
    -- the directory of such an entry would be the moved one, or below it
    obtain ⟨other, hother, hparent, -⟩ := hcurrent p n e hlisted
    obtain ⟨_, _, -, -, habove⟩ := h.exists_append he
    cases habove with
    | top => exact hed rfl
    | step _ hother' _ _ habove =>
      obtain rfl := Option.some.inj (hother.symm.trans hother')
      exact hdp (hparent ▸ habove.within)
  exact ⟨h.congr hkept, List.map_congr_left fun e he => name_listing_congr (hkept e he)⟩

theorem Climbs.joined_eq (h : t.Climbs root p above) (n : Bytes) :
    joined (showPath (above.map t.listing.name).reverse) n =
      showPath ((above.map t.listing.name).reverse ++ [n]) := by
  refine joined_showPath (fun name hname => ?_) n
  obtain ⟨e, he, rfl⟩ := List.mem_map.1 (List.mem_reverse.1 hname)
  obtain ⟨-, node, hnode, hne⟩ := h.exists_node_of_mem he
  rwa [name_listing hnode]

theorem pathOf?_rename_self (hcurrent : t.Current) (hd : d ≠ root)
    (hnode : t.nodes[d]? = some node) (hpath : t.pathOf? p = some path) (hdp : ¬ t.Within d p)
    (hn : n ≠ []) : (t.rename d p n).pathOf? d = some (joined path n) := by
  obtain ⟨above, habove, rfl⟩ := exists_climbs hpath
  obtain ⟨hplaced, hnames⟩ := habove.rename hcurrent hnode hd hdp hn
  rw [hplaced.pathOf?_eq, hnames, List.reverse_cons, habove.joined_eq]

theorem pathOf?_rename_within (hcurrent : t.Current) (hrooted : t.Rooted) (hd : d ≠ root)
    (hnode : t.nodes[d]? = some node) (hpath : t.pathOf? p = some path) (hdp : ¬ t.Within d p)
    (hn : n ≠ []) {old : String} (hold : t.pathOf? e = some old) (hwithin : t.Within d e) :
    ∃ above rest, t.pathOf? d = some above ∧ old = above ++ rest ∧
      (t.rename d p n).pathOf? e = some (joined path n ++ rest) := by
  obtain ⟨above, habove, rfl⟩ := exists_climbs hpath
  obtain ⟨chain, hchain, rfl⟩ := exists_climbs hold
  obtain ⟨below, rest, rfl, hbelow, hrest⟩ :=
    hchain.exists_append (hchain.mem_of_within hrooted hd hwithin)
  obtain ⟨hplaced, hplacedNames⟩ := habove.rename hcurrent hnode hd hdp hn
  obtain ⟨hkept, hkeptNames⟩ := hbelow.rename_below (n := n) hcurrent hnode hdp
  have hroot : root ∉ below := fun hmem =>
    (hchain.exists_node_of_mem (List.mem_append_left _ hmem)).1 rfl
  -- on both sides of the move, the names between the two entries come last
  obtain ⟨tail, htail⟩ := exists_showPath_append (below.map t.listing.name).reverse
  have hne : (rest.map t.listing.name).reverse ≠ [] := by
    cases hrest with
    | top => exact absurd rfl hd
    | step => simp
  refine ⟨_, tail, hrest.pathOf?_eq, ?_, ?_⟩
  · rw [List.map_append, List.reverse_append, htail _ hne]
  · rw [(hkept.append hplaced hroot).pathOf?_eq, List.map_append, hkeptNames, hplacedNames,
      List.reverse_append, List.reverse_cons, habove.joined_eq, htail _ (by simp)]

theorem pathOf?_rename_other (hnode : t.nodes[d]? = some node) (hde : ¬ t.Within d e)
    (hre : ∀ r, t.lookup? p n = some r → ¬ t.Within r e) :
    (t.rename d p n).pathOf? e = t.pathOf? e := by
  refine pathOf?_congr (fun e => ¬ t.Within d e ∧
    ∀ r, t.lookup? p n = some r → ¬ t.Within r e) (fun e he => ?_) (fun e node he hnode => ?_)
    ⟨hde, hre⟩
  · rw [nodes_rename hnode, if_neg fun heq : e = d => he.1 (heq ▸ .self),
      if_neg fun hlisted => he.2 e hlisted .self]
  · exact ⟨fun h => he.1 (.inside hnode h), fun r hr h => he.2 r hr (.inside hnode h)⟩

theorem inode_rename (hnode : t.nodes[d]? = some node)
    (hother : (t.rename d p n).nodes[e]? = some other) :
    ∃ node', t.nodes[e]? = some node' ∧ other.inode = node'.inode := by
  rw [nodes_rename hnode] at hother
  split at hother
  · next he =>
    obtain rfl := Option.some.inj hother
    exact ⟨node, he ▸ hnode, rfl⟩
  · split at hother
    · cases hother
    · exact ⟨other, hother, rfl⟩

/-- What moving an entry does to a tree that is in order. -/
theorem moved_of_current (hcurrent : t.Current) (hrooted : t.Rooted) (hd : d ≠ root)
    (hnode : t.nodes[d]? = some node) (hpath : t.pathOf? p = some path) (hdp : ¬ t.Within d p)
    (hn : n ≠ []) : t.Moved d p path n (t.rename d p n) where
  pathOf?_self := pathOf?_rename_self hcurrent hd hnode hpath hdp hn
  pathOf?_within _ _ := pathOf?_rename_within hcurrent hrooted hd hnode hpath hdp hn
  pathOf?_other _ := pathOf?_rename_other hnode
  lookup?_self := by rw [lookup?_rename hcurrent hnode, if_pos ⟨rfl, rfl⟩]
  unique_lookup? dir m hlisted := by
    rw [lookup?_rename hcurrent hnode] at hlisted
    by_contra hkey
    rw [if_neg hkey] at hlisted
    split at hlisted
    · cases hlisted
    · next hother => exact hother hlisted
  lookup?_other dir m hkey hlisted := by
    rw [lookup?_rename hcurrent hnode, if_neg hkey, if_neg hlisted]
  nodes_replaced r hr hlisted := by rw [nodes_rename hnode, if_neg hr, if_pos hlisted]
  nodes_other e he hlisted := by rw [nodes_rename hnode, if_neg he, if_neg hlisted]
  inode_eq _ _ := inode_rename hnode

/-- **Moving an entry moves all that is below it, and nothing else.** Any calls are made on a new
tree, with any names, as long as the root is not moved and no entry loses its name. Then an entry
that is not the root is moved to a directory that has a path and is neither the entry nor below it,
under a name that is not empty. The entry and all below it have their paths below the new place; all
other entries keep theirs, except for those below an entry that was in the new place. That entry is
gone, even if it was above the one that is moved. -/
theorem edited_rename_moved (mount : MountId) (device : DeviceId) {edits : List Edit}
    (hedits : ∀ c ∈ edits, c.Ordinary) (hd : d ≠ root)
    (hnode : ((new mount device).edited edits).nodes[d]? = some node)
    (hpath : ((new mount device).edited edits).pathOf? p = some path)
    (hdp : ¬ ((new mount device).edited edits).Within d p) (hn : n ≠ []) :
    ((new mount device).edited edits).Moved d p path n
      (((new mount device).edited edits).rename d p n) := by
  obtain ⟨hcurrent, hrooted⟩ := edited_ordered mount device hedits
  exact moved_of_current hcurrent hrooted hd hnode hpath hdp hn

/-- A directory takes the place of the one that it is in. -/
theorem rename_onto_parent :
    let t := (new 1 1).edited [.makeDir root [97], .makeDir ⟨2⟩ [98], .makeFile ⟨3⟩ [99]]
    t.lookup? root [97] = some ⟨2⟩ ∧ t.nodes[(⟨3⟩ : Handle)]? = some ⟨[98], ⟨2⟩, 4⟩ ∧
      t.Moved ⟨3⟩ root "/" [97] (t.rename ⟨3⟩ root [97]) := by
  intro t
  have hedits : ∀ c ∈ [Edit.makeDir root [97], .makeDir ⟨2⟩ [98], .makeFile ⟨3⟩ [99]],
      c.Ordinary := by simp [Edit.Ordinary]
  have hlisted : t.lookup? root [97] = some ⟨2⟩ := by
    simp [t, edited, edit, makeDir, makeFile, drawInode, add, new, lookup?, root, rootInode,
      Std.HashMap.getElem_insert]
  have hnode : t.nodes[(⟨3⟩ : Handle)]? = some ⟨[98], ⟨2⟩, 4⟩ := by
    simp [t, edited, edit, makeDir, makeFile, drawInode, add, new, lookup?, root, rootInode,
      Std.HashMap.getElem_insert]
  have hpath : t.pathOf? root = some "/" := by
    rw [Climbs.top.pathOf?_eq]
    simp [showPath]
  have hdp : ¬ t.Within ⟨3⟩ root := fun hwithin =>
    absurd ((edited_ordered 1 1 hedits).2.eq_of_within_root hwithin) (by decide)
  exact ⟨hlisted, hnode, edited_rename_moved 1 1 hedits (by decide) hnode hpath hdp (by decide)⟩

end Rename

end Tree

end FsTrace
