import FsTrace.Proofs.TreeChains

/-!
# Entries that are connected to the root

An entry has a path if its parent links lead to the root. They may also go round in a circle, or end
at an entry that is gone or has lost its name. The search for the root counts its steps, so that it
ends in any case.

* `Tree.Climbs`: the parent links of an entry lead to another one above it, through entries that
  exist, have names and are not their own parents;
* `Tree.Climbs.length_le_size`: no entry is passed twice, so that there are no more steps than
  entries;
* `Tree.exists_climbs_of_namesToRoot?`, `Tree.Climbs.namesToRoot?_eq`: what a search with a limit
  finds;
* `Tree.pathOf?_iff_climbs`: which entries have a path, and what it is.
-/

namespace FsTrace

namespace Tree

/-- The parent links of an entry lead to `top` through these entries, itself first. All of them
exist, have names and are not their own parents. -/
inductive Climbs (t : Tree) (top : Handle) : Handle → List Handle → Prop
  | top : Climbs t top top []
  | step {d : Handle} {node : Node} {above : List Handle} :
    d ≠ top → t.nodes[d]? = some node → node.name ≠ [] → node.parent ≠ d →
      Climbs t top node.parent above → Climbs t top d (d :: above)

variable {t t' : Tree} {top d e : Handle} {node : Node} {chain chain' above below : List Handle}
  {names : List Bytes} {steps : Nat} {path : String}

namespace Climbs

theorem unique (h : t.Climbs top d chain) (h' : t.Climbs top d chain') : chain = chain' := by
  induction h generalizing chain' with
  | top =>
    cases h' with
    | top => rfl
    | step hd => exact absurd rfl hd
  | step hd hnode _ _ _ ih =>
    cases h' with
    | top => exact absurd rfl hd
    | step _ hnode' _ _ habove' =>
      obtain rfl := Option.some.inj (hnode.symm.trans hnode')
      rw [ih habove']

/-- From every entry on the way, the links lead on along the rest of it. -/
theorem exists_append (h : t.Climbs top d chain) (he : e ∈ chain) :
    ∃ below above, chain = below ++ above ∧ t.Climbs e d below ∧ t.Climbs top e above := by
  induction h with
  | top => cases he
  | @step d node above hd hnode hname hself habove ih =>
    by_cases hde : d = e
    · subst hde
      exact ⟨[], d :: above, rfl, .top, .step hd hnode hname hself habove⟩
    · rcases List.mem_cons.1 he with heq | he
      · exact absurd heq.symm hde
      · obtain ⟨below, above', rfl, hbelow, habove'⟩ := ih he
        exact ⟨d :: below, above', rfl, .step hde hnode hname hself hbelow, habove'⟩

theorem exists_node_of_mem (h : t.Climbs top d chain) (he : e ∈ chain) :
    e ≠ top ∧ ∃ node, t.nodes[e]? = some node ∧ node.name ≠ [] := by
  obtain ⟨_, _, -, -, habove⟩ := h.exists_append he
  cases habove with
  | top =>
    -- the links do not lead through the entry that they lead to
    exfalso
    induction h with
    | top => cases he
    | step hd _ _ _ _ ih =>
      rcases List.mem_cons.1 he with rfl | he
      · exact hd rfl
      · exact ih he
  | step hd hnode hname => exact ⟨hd, _, hnode, hname⟩

theorem nodup (h : t.Climbs top d chain) : chain.Nodup := by
  induction h with
  | top => exact List.nodup_nil
  | @step d node above hd hnode hname hself habove ih =>
    refine List.nodup_cons.2 ⟨fun hmem => ?_, ih⟩
    -- from an entry that is passed again, there would be two ways of different lengths
    obtain ⟨below, rest, happend, -, hrest⟩ := habove.exists_append hmem
    have hlength := congrArg List.length (hrest.unique (.step hd hnode hname hself habove))
    rw [happend, List.length_cons, List.length_append] at hlength
    omega

/-- No entry is passed twice. -/
theorem length_le_size (h : t.Climbs top d chain) : chain.length ≤ t.size := by
  have hkeys : chain ⊆ t.nodes.keys := by
    intro e he
    obtain ⟨-, node, hnode, -⟩ := h.exists_node_of_mem he
    exact Std.HashMap.mem_keys.2 (Std.HashMap.mem_iff_isSome_getElem?.2 (hnode ▸ rfl))
  rw [size, ← Std.HashMap.length_keys]
  exact (h.nodup.subperm hkeys).length_le

/-- What leads on to an entry that leads to `top` leads there, unless it passes it before. -/
theorem append (h : t.Climbs d e below) (h' : t.Climbs top d above) (htop : top ∉ below) :
    t.Climbs top e (below ++ above) := by
  induction h with
  | top => exact h'
  | step _ hnode hname hself _ ih =>
    obtain ⟨hne, htop⟩ := not_or.1 (mt List.mem_cons.2 htop)
    exact .step (Ne.symm hne) hnode hname hself (ih htop)

/-- The links of entries that are as they were lead to where they led. -/
theorem congr (h : t.Climbs top d chain) (hkept : ∀ e ∈ chain, t'.nodes[e]? = t.nodes[e]?) :
    t'.Climbs top d chain := by
  induction h with
  | top => exact .top
  | step hd hnode hname hself _ ih =>
    obtain ⟨hsame, hkept⟩ := List.forall_mem_cons.1 hkept
    exact .step hd (hsame.trans hnode) hname hself (ih hkept)

end Climbs

theorem name_listing_congr (h : t'.nodes[d]? = t.nodes[d]?) :
    t'.listing.name d = t.listing.name d := by
  simp only [listing, h]

/-! ### The search for the root -/

/-- A search finds the names on the way to the root, if its limit allows as many. -/
theorem exists_climbs_of_namesToRoot? (h : t.namesToRoot? d steps = some names) :
    ∃ chain, t.Climbs root d chain ∧ chain.length ≤ steps ∧ names = chain.map t.listing.name := by
  induction steps generalizing d names with
  | zero =>
    rcases namesToRoot?_cases h with ⟨rfl, rfl⟩ | ⟨n, _, _, hn, -⟩
    · exact ⟨[], .top, le_rfl, rfl⟩
    · exact absurd hn (Nat.succ_ne_zero n).symm
  | succ steps ih =>
    rcases namesToRoot?_cases h with
      ⟨rfl, rfl⟩ | ⟨n, node, above, hn, hd, hnode, hname, hself, habove, rfl⟩
    · exact ⟨[], .top, Nat.zero_le _, rfl⟩
    · obtain rfl := Nat.succ.inj hn
      obtain ⟨chain, hchain, hlength, rfl⟩ := ih habove
      refine ⟨d :: chain, .step hd hnode hname hself hchain, Nat.succ_le_succ hlength, ?_⟩
      rw [List.map_cons, name_listing hnode]

theorem Climbs.namesToRoot?_eq (h : t.Climbs root d chain) (hlength : chain.length ≤ steps) :
    t.namesToRoot? d steps = some (chain.map t.listing.name) := by
  induction h generalizing steps with
  | top => exact namesToRoot?_root t _
  | step hd hnode hname hself _ ih =>
    obtain ⟨steps, rfl⟩ := Nat.exists_eq_succ_of_ne_zero (Nat.ne_zero_of_lt hlength)
    rw [namesToRoot?_of_node hnode hd hname hself, ih (Nat.le_of_succ_le_succ hlength),
      List.map_cons, name_listing hnode]
    rfl

/-- A limit that is no less than the number of entries is as good as none. -/
theorem namesToRoot?_of_size_le (h : t.size ≤ steps) :
    t.namesToRoot? d steps = some names ↔
      ∃ chain, t.Climbs root d chain ∧ names = chain.map t.listing.name := by
  constructor
  · intro hnames
    obtain ⟨chain, hchain, -, hmap⟩ := exists_climbs_of_namesToRoot? hnames
    exact ⟨chain, hchain, hmap⟩
  · rintro ⟨chain, hchain, rfl⟩
    exact hchain.namesToRoot?_eq (hchain.length_le_size.trans h)

/-- An entry that is connected to the root has a path. -/
theorem Climbs.pathOf?_eq (h : t.Climbs root d chain) :
    t.pathOf? d = some (showPath (chain.map t.listing.name).reverse) := by
  rw [pathOf?, (namesToRoot?_of_size_le (Nat.le_succ _)).2 ⟨chain, h, rfl⟩]
  rfl

/-- An entry with a path is connected to the root. -/
theorem exists_climbs (h : t.pathOf? d = some path) :
    ∃ chain, t.Climbs root d chain ∧ path = showPath (chain.map t.listing.name).reverse := by
  obtain ⟨names, hnames, rfl⟩ := Option.map_eq_some_iff.1 h
  obtain ⟨chain, hchain, rfl⟩ := (namesToRoot?_of_size_le (Nat.le_succ _)).1 hnames
  exact ⟨chain, hchain, rfl⟩

/-- **Which entries have a path.** In any tree, whatever its parent links are like: an entry has a
path just when they lead from it to the root, through entries that all exist, have names and are not
their own parents. The path is a slash and then these names, that of the entry last, with slashes
between them. The limit never decides: a search without one would find a path just when this one
does, and the same. -/
theorem pathOf?_iff_climbs (t : Tree) (d : Handle) :
    (∀ path, t.pathOf? d = some path ↔ ∃ chain, t.Climbs root d chain ∧
      path = "/" ++ "/".intercalate (chain.reverse.map fun e => Text.lossy (t.listing.name e))) ∧
    ∀ steps, t.size ≤ steps → t.namesToRoot? d steps = t.namesToRoot? d (t.size + 1) := by
  have hshown : ∀ chain : List Handle, showPath (chain.map t.listing.name).reverse =
      "/" ++ "/".intercalate (chain.reverse.map fun e => Text.lossy (t.listing.name e)) := by
    intro chain
    rw [showPath, ← List.map_reverse, List.map_map]
    rfl
  constructor
  · intro path
    constructor
    · intro h
      obtain ⟨chain, hchain, rfl⟩ := exists_climbs h
      exact ⟨chain, hchain, hshown chain⟩
    · rintro ⟨chain, hchain, rfl⟩
      rw [hchain.pathOf?_eq, hshown]
  · intro steps hsteps
    refine Option.ext fun names => ?_
    rw [namesToRoot?_of_size_le hsteps, namesToRoot?_of_size_le (Nat.le_succ _)]

end Tree

end FsTrace
