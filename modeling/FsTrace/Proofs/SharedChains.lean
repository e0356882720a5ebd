import FsTrace.Proofs.FixedTree
import FsTrace.Proofs.FragmentWalk

/-!
# Chains that entries share

Entries of a tree that stays as it is are resolved one after another, each under its own location.

* `Follows`: following stored parent links from a key, up to a fragment without parent;
* `FixedTree.Walk`: one walk that does not run out of depth, as a relation;
* `FixedTree.Faithful`: every stored fragment is that of an entry. Every walk keeps a store
  faithful, whatever it evicts (`Walk.faithful`);
* `FixedTree.mem_keys_puts_iff`: the fragments written along a run are those of the resolved
  entries and of all entries on their chains;
* `FixedTree.follows_iff`: a chain can be followed as long as all of it is stored.
-/

namespace FsTrace

/-- Following parent links from a key gives these names and ends without a parent. -/
inductive Follows (t : Table Location Fragment) : Location → List Bytes → Prop
  | last {key : Location} {f : Fragment} :
    t.peek? key = some f → f.parent = .nowhere → Follows t key [f.name]
  | link {key : Location} {f : Fragment} {names : List Bytes} :
    t.peek? key = some f → f.parent ≠ .nowhere → Follows t f.parent names →
      Follows t key (f.name :: names)

/-- An entry to resolve, and the mount it was reached through. -/
structure Leaf where
  mount : MountId
  entry : Handle

namespace FixedTree

variable (T : FixedTree) (mount : MountId)

/-! ### Runs -/

/-- An entry is resolved under its own location. -/
def resolve (s : FragmentStore) (leaf : Leaf) : Bool × FragmentStore :=
  s.resolve (.still T.accessor) leaf.entry (T.locate leaf.mount leaf.entry)

/-- Entries are resolved one after another. Gives whether each walk ran out of depth. -/
def resolveAll (s : FragmentStore) : List Leaf → List Bool × FragmentStore
  | [] => ([], s)
  | leaf :: leaves =>
    let (truncated, s) := T.resolve s leaf
    let (rest, s) := resolveAll s leaves
    (truncated :: rest, s)

/-- The fragments that the walk from an entry writes. -/
def walkPuts (s : FragmentStore) (leaf : Leaf) : List FragmentStore.Put :=
  s.puts leaf.mount (T.locate leaf.mount leaf.entry) (ascent (.still T.accessor) leaf.entry)

/-- The fragments that a run writes. -/
def puts (s : FragmentStore) : List Leaf → List FragmentStore.Put
  | [] => []
  | leaf :: leaves => T.walkPuts s leaf ++ puts (T.resolve s leaf).2 leaves

/-- No walk of a run runs out of depth. -/
def Finishes (s : FragmentStore) (leaves : List Leaf) : Prop :=
  ∀ truncated ∈ (T.resolveAll s leaves).1, truncated = false

/-- Every stored fragment is that of an entry. -/
def Faithful (s : FragmentStore) : Prop :=
  ∀ key f, s.table.peek? key = some f →
    ∃ mount, ∃ d ∈ T.entries, key = T.locate mount d ∧ f = T.fragment mount d

/-- The store after a walk found an entry missing. -/
def store (s : FragmentStore) (d : Handle) : FragmentStore :=
  (s.look (T.locate mount d)).put (T.locate mount d) (T.fragment mount d)

/-- A walk that does not run out of depth: the store before it, where it starts, the store after
it, and the keys it wrote. -/
inductive Walk : FragmentStore → Handle → FragmentStore → List Location → Prop
  | stored {s : FragmentStore} {d : Handle} :
    s.endsAt (T.locate mount d) = true →
      Walk s d { s.look (T.locate mount d) with deduplicated := s.deduplicated + 1 } []
  | root {s : FragmentStore} {d : Handle} :
    s.endsAt (T.locate mount d) = false → T.IsBoundary d →
      Walk s d (T.store mount s d) [T.locate mount d]
  | step {s s' : FragmentStore} {d : Handle} {keys : List Location} :
    s.endsAt (T.locate mount d) = false → ¬ T.IsBoundary d →
      Walk (T.store mount s d) (T.parent d) s' keys → Walk s d s' (T.locate mount d :: keys)

variable {T mount} {s s' : FragmentStore} {d e : Handle} {chain : List Handle}
  {keys : List Location}

theorem visit_level (hd : d ∈ T.entries) :
    s.visit mount (T.locate mount d) (T.level d) = T.store mount s d := by
  rw [FragmentStore.visit, fragment_level hd, store]

/-- A walk over the levels of a chain that is not cut short is a `Walk`. -/
theorem walk_of_storeLevels (h : T.Leads d chain) (hd : d ∈ T.entries) (depth : Nat)
    (hfinished : (FragmentStore.storeLevels mount s (T.locate mount d)
      ((chain.take depth).map T.level)).1 = false) :
    T.Walk mount s d
      (FragmentStore.storeLevels mount s (T.locate mount d) ((chain.take depth).map T.level)).2
      ((s.puts mount (T.locate mount d) ((chain.take depth).map T.level)).map (·.key)) := by
  induction depth generalizing s d chain with
  | zero => simp [FragmentStore.storeLevels] at hfinished
  | succ depth ih =>
    have hroot : (T.parentLocation mount d).isNowhere = true ↔ T.IsBoundary d :=
      isNowhere_parentLocation hd
    cases hends : s.endsAt (T.locate mount d) with
    | true =>
      have hlevels : ∃ above,
          (chain.take (depth + 1)).map T.level = T.level d :: above := by
        cases h <;> exact ⟨_, rfl⟩
      obtain ⟨above, habove⟩ := hlevels
      rw [habove, FragmentStore.storeLevels_of_stored hends, FragmentStore.puts, if_pos hends]
      exact .stored hends
    | false =>
      have hgoes : ¬ s.endsAt (T.locate mount d) = true := by simp [hends]
      cases h with
      | boundary hboundary =>
        simp only [List.take_succ_cons, List.take_nil, List.map_cons, List.map_nil]
        rw [FragmentStore.storeLevels_of_missing hends, FragmentStore.puts, if_neg hgoes,
          parentLocation_level hd, if_pos (hroot.2 hboundary), if_pos (hroot.2 hboundary),
          visit_level hd]
        exact .root hends hboundary
      | step hboundary habove =>
        have hnext : T.parentLocation mount d = T.locate mount (T.parent d) := if_neg hboundary
        simp only [List.take_succ_cons, List.map_cons] at hfinished ⊢
        rw [FragmentStore.storeLevels_of_missing hends, parentLocation_level hd,
          if_neg (fun hn => hboundary (hroot.1 hn)), visit_level hd, hnext] at hfinished ⊢
        rw [FragmentStore.puts, if_neg hgoes, parentLocation_level hd,
          if_neg (fun hn => hboundary (hroot.1 hn)), visit_level hd, hnext]
        exact .step hends hboundary (ih habove (T.parent_mem d hd hboundary) hfinished)

variable {leaf : Leaf}

theorem resolve_eq (hleaf : leaf.entry ∈ T.entries) :
    T.resolve s leaf = FragmentStore.storeLevels leaf.mount s (T.locate leaf.mount leaf.entry)
      (ascent (.still T.accessor) leaf.entry) := by
  rw [resolve, FragmentStore.resolve, hasNoInode_locate hleaf]
  rfl

/-- What is resolved without running out of depth is a `Walk`. -/
theorem walk_of_resolve (hleaf : leaf.entry ∈ T.entries)
    (hfinished : (T.resolve s leaf).1 = false) :
    T.Walk leaf.mount s leaf.entry (T.resolve s leaf).2 ((T.walkPuts s leaf).map (·.key)) := by
  obtain ⟨chain, hchain⟩ := T.leads leaf.entry hleaf
  rw [resolve_eq hleaf, ascent_eq hchain hleaf] at hfinished ⊢
  rw [walkPuts, ascent_eq hchain hleaf]
  exact walk_of_storeLevels hchain hleaf _ hfinished

/-! ### What a walk keeps and adds -/

theorem faithful_new (capacity : Nat) : T.Faithful (.new capacity) := by
  intro key f hf
  rw [FragmentStore.new, Table.peek?_new] at hf
  cases hf

theorem Faithful.store (hs : T.Faithful s) (hd : d ∈ T.entries) :
    T.Faithful (T.store mount s d) := by
  intro key f hf
  rcases FragmentStore.peek?_of_put hf with ⟨rfl, rfl⟩ | hold
  · exact ⟨mount, d, hd, rfl, rfl⟩
  · rw [FragmentStore.peek?_look] at hold
    exact hs key f hold

theorem Walk.faithful (h : T.Walk mount s d s' keys) (hd : d ∈ T.entries) (hs : T.Faithful s) :
    T.Faithful s' := by
  induction h with
  | stored _ =>
    intro key f hf
    exact hs key f ((FragmentStore.peek?_look key).symm.trans hf)
  | root _ _ => exact hs.store hd
  | step _ hboundary _ ih => exact ih (T.parent_mem _ hd hboundary) (hs.store hd)

/-- A walk stores nothing off the chain. -/
theorem Walk.reaches_of_mem (h : T.Walk mount s d s' keys) (hd : d ∈ T.entries) {key : Location}
    (hkey : key ∈ keys) : ∃ e, T.Reaches d e ∧ key = T.locate mount e := by
  induction h with
  | stored _ => cases hkey
  | root _ _ => exact ⟨_, reaches_refl hd, List.mem_singleton.1 hkey⟩
  | step _ hboundary _ ih =>
    rcases List.mem_cons.1 hkey with rfl | hkey
    · exact ⟨_, reaches_refl hd, rfl⟩
    · obtain ⟨e, he, hlocate⟩ := ih (T.parent_mem _ hd hboundary) hkey
      exact ⟨e, he.of_parent hboundary, hlocate⟩

/-- With a key, a set of keys holds those of the whole chain. -/
def ClosedUp (T : FixedTree) (keys : Set Location) : Prop :=
  ∀ mount, ∀ a ∈ T.entries, ∀ e, T.Reaches a e → T.locate mount a ∈ keys → T.locate mount e ∈ keys

/-- What a walk leaves out of a chain was noted before. A walk ends early only at a stored entry;
the entries that it stored itself lie below, so that one was noted with its whole chain. -/
theorem Walk.noted {noted : Set Location} (hclosed : T.ClosedUp noted)
    (h : T.Walk mount s d s' keys) (hd : d ∈ T.entries)
    (hnoted : ∀ e, T.Reaches d e → (s.table.peek? (T.locate mount e)).isSome →
      T.locate mount e ∈ noted) (he : T.Reaches d e) :
    T.locate mount e ∈ noted ∨ T.locate mount e ∈ keys := by
  induction h with
  | @stored s d hends =>
    -- the walk ends at an entry that was noted, and its chain was noted with it
    refine Or.inl (hclosed mount d hd e he (hnoted d (reaches_refl hd) ?_))
    exact Option.isSome_of_any hends
  | root _ hboundary =>
    rw [(Listing.reaches_of_boundary hboundary).1 he]
    exact Or.inr (List.mem_singleton_self _)
  | @step s s' d keys _ hboundary _ ih =>
    rcases he.eq_or_parent hboundary with rfl | he
    · exact Or.inr List.mem_cons_self
    · refine (ih (T.parent_mem d hd hboundary) (fun a ha hstored => ?_) he).imp_right
        (List.mem_cons_of_mem _)
      rw [store, FragmentStore.isSome_put_iff, FragmentStore.peek?_look] at hstored
      rcases hstored with hsame | ⟨hold, -⟩
      · -- the entry just stored is not above itself
        rw [locate_inj hd (mem_of_reaches (T.parent_mem d hd hboundary) ha)] at hsame
        exact absurd (hsame.2 ▸ ha) (Listing.not_reaches_parent hboundary)
      · exact hnoted a (ha.of_parent hboundary) hold

/-! ### What a run keeps and adds -/

variable {leaves : List Leaf}

theorem finishes_cons :
    T.Finishes s (leaf :: leaves) ↔
      (T.resolve s leaf).1 = false ∧ T.Finishes (T.resolve s leaf).2 leaves :=
  List.forall_mem_cons

theorem faithful_resolveAll (hleaves : ∀ leaf ∈ leaves, leaf.entry ∈ T.entries)
    (hfinishes : T.Finishes s leaves) (hs : T.Faithful s) :
    T.Faithful (T.resolveAll s leaves).2 := by
  induction leaves generalizing s with
  | nil => exact hs
  | cons leaf leaves ih =>
    obtain ⟨hleaf, hleaves⟩ := List.forall_mem_cons.1 hleaves
    obtain ⟨hwalk, hfinishes⟩ := finishes_cons.1 hfinishes
    exact ih hleaves hfinishes ((walk_of_resolve hleaf hwalk).faithful hleaf hs)

theorem writes_resolve (hleaf : leaf.entry ∈ T.entries) :
    FragmentStore.Writes s (T.walkPuts s leaf) (T.resolve s leaf).2 := by
  rw [resolve_eq hleaf]
  exact FragmentStore.writes_storeLevels _

/-- A run is some looks and its puts. -/
theorem writes_resolveAll (hleaves : ∀ leaf ∈ leaves, leaf.entry ∈ T.entries) :
    FragmentStore.Writes s (T.puts s leaves) (T.resolveAll s leaves).2 := by
  induction leaves generalizing s with
  | nil => exact .done
  | cons leaf leaves ih =>
    obtain ⟨hleaf, hleaves⟩ := List.forall_mem_cons.1 hleaves
    exact (writes_resolve hleaf).trans (ih hleaves)

theorem reaches_of_mem_puts (hleaves : ∀ leaf ∈ leaves, leaf.entry ∈ T.entries)
    (hfinishes : T.Finishes s leaves) {key : Location}
    (hkey : key ∈ (T.puts s leaves).map (·.key)) :
    ∃ leaf ∈ leaves, ∃ e, T.Reaches leaf.entry e ∧ key = T.locate leaf.mount e := by
  induction leaves generalizing s with
  | nil => cases hkey
  | cons leaf leaves ih =>
    obtain ⟨hleaf, hleaves⟩ := List.forall_mem_cons.1 hleaves
    obtain ⟨hwalk, hfinishes⟩ := finishes_cons.1 hfinishes
    rw [puts, List.map_append] at hkey
    rcases List.mem_append.1 hkey with hkey | hkey
    · exact ⟨leaf, List.mem_cons_self, (walk_of_resolve hleaf hwalk).reaches_of_mem hleaf hkey⟩
    · obtain ⟨leaf', hleaf', hreaches⟩ := ih hleaves hfinishes hkey
      exact ⟨leaf', List.mem_cons_of_mem _ hleaf', hreaches⟩

/-- Along a run, the keys noted before and those written since always hold whole chains. -/
theorem noted_resolveAll {noted : Set Location} (hclosed : T.ClosedUp noted)
    (hnoted : ∀ key, (s.table.peek? key).isSome → key ∈ noted)
    (hleaves : ∀ leaf ∈ leaves, leaf.entry ∈ T.entries) (hfinishes : T.Finishes s leaves)
    (hleaf : leaf ∈ leaves) (he : T.Reaches leaf.entry e) :
    T.locate leaf.mount e ∈ noted ∨ T.locate leaf.mount e ∈ (T.puts s leaves).map (·.key) := by
  induction leaves generalizing s noted with
  | nil => cases hleaf
  | cons first leaves ih =>
    obtain ⟨hfirst, hleaves⟩ := List.forall_mem_cons.1 hleaves
    obtain ⟨hwalk, hfinishes⟩ := finishes_cons.1 hfinishes
    have walk := walk_of_resolve hfirst hwalk
    have hadds : ∀ e, T.Reaches first.entry e →
        T.locate first.mount e ∈ noted ∪ {key | key ∈ (T.walkPuts s first).map (·.key)} :=
      fun e he => walk.noted hclosed hfirst (fun a _ => hnoted _) he
    have hclosed' : T.ClosedUp (noted ∪ {key | key ∈ (T.walkPuts s first).map (·.key)}) := by
      rintro mount a ha e hreaches (hold | hnew)
      · exact Or.inl (hclosed mount a ha e hreaches hold)
      · obtain ⟨a', ha', hlocate⟩ := walk.reaches_of_mem hfirst hnew
        rw [locate_inj ha (mem_of_reaches hfirst ha')] at hlocate
        obtain ⟨rfl, rfl⟩ := hlocate
        exact hadds e (ha'.trans hreaches)
    -- what this walk wrote counts as noted for the rest of the run
    rw [puts, List.map_append, List.mem_append, ← or_assoc]
    rcases List.mem_cons.1 hleaf with rfl | hleaf
    · exact Or.inl (hadds e he)
    · refine ih hclosed' (fun key hkey => ?_) hleaves hfinishes hleaf
      rw [(writes_resolve hfirst).isSome_iff] at hkey
      exact (FragmentStore.held_iff.1 hkey).1.imp_left (hnoted key)

/-- The fragments written along a run are those of the resolved entries and of all entries on their
chains. -/
theorem mem_keys_puts_iff {capacity : Nat} (hleaves : ∀ leaf ∈ leaves, leaf.entry ∈ T.entries)
    (hfinishes : T.Finishes (.new capacity) leaves) {key : Location} :
    key ∈ (T.puts (.new capacity) leaves).map (·.key) ↔
      ∃ leaf ∈ leaves, ∃ e, T.Reaches leaf.entry e ∧ key = T.locate leaf.mount e := by
  refine ⟨reaches_of_mem_puts hleaves hfinishes, ?_⟩
  rintro ⟨leaf, hleaf, e, he, rfl⟩
  have hclosed : T.ClosedUp ∅ := fun _ _ _ _ _ hnone => hnone.elim
  refine (noted_resolveAll hclosed (fun key hkey => ?_) hleaves hfinishes hleaf he).resolve_left id
  simp [FragmentStore.new] at hkey

/-- What a run leaves in a store that was empty: the fragments of the resolved entries and of all
entries on their chains, but for those that were lost. -/
theorem isSome_resolveAll_new_iff {capacity : Nat}
    (hleaves : ∀ leaf ∈ leaves, leaf.entry ∈ T.entries)
    (hfinishes : T.Finishes (.new capacity) leaves) {key : Location} :
    ((T.resolveAll (.new capacity) leaves).2.table.peek? key).isSome ↔
      (∃ leaf ∈ leaves, ∃ e, T.Reaches leaf.entry e ∧ key = T.locate leaf.mount e) ∧
        ¬ FragmentStore.Lost key (T.puts (.new capacity) leaves) := by
  rw [(writes_resolveAll hleaves).isSome_iff, FragmentStore.held_iff,
    mem_keys_puts_iff hleaves hfinishes]
  simp [FragmentStore.new]

/-- Without evictions nothing is lost. -/
theorem not_lost_of_evictions_eq_zero {capacity : Nat}
    (hleaves : ∀ leaf ∈ leaves, leaf.entry ∈ T.entries)
    (h : (T.resolveAll (.new capacity) leaves).2.table.evictions = 0) (key : Location) :
    ¬ FragmentStore.Lost key (T.puts (.new capacity) leaves) := by
  rw [(writes_resolveAll hleaves).evictions_eq] at h
  exact FragmentStore.not_lost (Nat.eq_zero_of_add_eq_zero_left h)

/-! ### Runs with room -/

/-- A walk over all levels of a chain does not run out of depth. -/
theorem finished_storeLevels (h : T.Leads d chain) (hd : d ∈ T.entries) :
    (FragmentStore.storeLevels mount s (T.locate mount d) (chain.map T.level)).1 = false := by
  induction h generalizing s with
  | @boundary d hboundary =>
    cases hends : s.endsAt (T.locate mount d) with
    | true => rw [List.map_cons, FragmentStore.storeLevels_of_stored hends]
    | false =>
      rw [List.map_cons, FragmentStore.storeLevels_of_missing hends, parentLocation_level hd,
        if_pos ((isNowhere_parentLocation hd).2 hboundary)]
  | @step d above hboundary _ ih =>
    cases hends : s.endsAt (T.locate mount d) with
    | true => rw [List.map_cons, FragmentStore.storeLevels_of_stored hends]
    | false =>
      have hnext : T.parentLocation mount d = T.locate mount (T.parent d) := if_neg hboundary
      rw [List.map_cons, FragmentStore.storeLevels_of_missing hends, parentLocation_level hd,
        if_neg (fun hn => hboundary ((isNowhere_parentLocation hd).1 hn)), hnext]
      exact ih (T.parent_mem d hd hboundary)

theorem finishes_of_length_le (hleaves : ∀ leaf ∈ leaves, leaf.entry ∈ T.entries)
    (h : ∀ leaf ∈ leaves, ∀ chain, T.Leads leaf.entry chain → chain.length ≤ maxPathDepth) :
    T.Finishes s leaves := by
  induction leaves generalizing s with
  | nil => exact fun _ hnone => absurd hnone List.not_mem_nil
  | cons leaf leaves ih =>
    obtain ⟨hleaf, hleaves⟩ := List.forall_mem_cons.1 hleaves
    obtain ⟨hlength, h⟩ := List.forall_mem_cons.1 h
    refine finishes_cons.2 ⟨?_, ih hleaves h⟩
    obtain ⟨chain, hchain⟩ := T.leads leaf.entry hleaf
    rw [resolve_eq hleaf, ascent_eq hchain hleaf, List.take_of_length_le (hlength chain hchain)]
    exact finished_storeLevels hchain hleaf

theorem finishes_of_shallow (hT : T.Shallow) (hleaves : ∀ leaf ∈ leaves, leaf.entry ∈ T.entries) :
    T.Finishes s leaves :=
  finishes_of_length_le hleaves fun leaf hleaf => hT leaf.entry (hleaves leaf hleaf)

/-- A run writes at most a whole ascent and a mark for each resolved entry. -/
theorem length_puts_le (s : FragmentStore) (leaves : List Leaf) :
    (T.puts s leaves).length ≤ (maxPathDepth + 1) * leaves.length := by
  induction leaves generalizing s with
  | nil => exact le_rfl
  | cons leaf leaves ih =>
    have hwalk : (T.walkPuts s leaf).length ≤ maxPathDepth + 1 :=
      (FragmentStore.length_puts_le _).trans (Nat.succ_le_succ (length_ascent_le _ _))
    rw [puts, List.length_append, List.length_cons, Nat.mul_succ, Nat.add_comm]
    exact Nat.add_le_add (ih _) hwalk

/-- With room for all that, nothing is evicted. -/
theorem evictions_resolveAll_eq_zero {capacity : Nat}
    (hleaves : ∀ leaf ∈ leaves, leaf.entry ∈ T.entries)
    (hroom : (maxPathDepth + 1) * leaves.length ≤ max capacity 1) :
    (T.resolveAll (.new capacity) leaves).2.table.evictions = 0 := by
  have hputs : (FragmentStore.new capacity).inserted + (T.puts (.new capacity) leaves).length ≤
      (FragmentStore.new capacity).table.capacity :=
    (Nat.zero_add _).trans_le ((length_puts_le _ _).trans hroom)
  have hunswept := (writes_resolveAll hleaves).unswept (FragmentStore.unswept_new capacity) hputs
  exact hunswept.evictions_eq

/-! ### Following chains -/

/-- A chain can be followed as long as all of it is stored, and then gives its names. -/
theorem follows_iff (hs : T.Faithful s) (h : T.Leads d chain) (hd : d ∈ T.entries)
    {names : List Bytes} :
    Follows s.table (T.locate mount d) names ↔
      (∀ e ∈ chain, (s.table.peek? (T.locate mount e)).isSome) ∧
        names = chain.map fun e => (T.fragment mount e).name := by
  have own : ∀ {d f}, d ∈ T.entries → s.table.peek? (T.locate mount d) = some f →
      f = T.fragment mount d := by
    intro d f hd hf
    obtain ⟨mount', d', hd', hlocate, rfl⟩ := hs _ f hf
    obtain ⟨rfl, rfl⟩ := (locate_inj hd hd').1 hlocate
    rfl
  induction h generalizing names with
  | @boundary d hboundary =>
    have hparent : (T.fragment mount d).parent = .nowhere := if_pos hboundary
    simp only [List.forall_mem_singleton, List.map_cons, List.map_nil]
    constructor
    · rintro (⟨hf, -⟩ | ⟨hf, hne, -⟩)
      · obtain rfl := own hd hf
        exact ⟨hf ▸ rfl, rfl⟩
      · exact absurd (own hd hf ▸ hparent) hne
    · rintro ⟨hstored, rfl⟩
      obtain ⟨f, hf⟩ := Option.isSome_iff_exists.1 hstored
      obtain rfl := own hd hf
      exact .last hf hparent
  | @step d above hboundary habove ih =>
    have hmem := T.parent_mem d hd hboundary
    have hparent : (T.fragment mount d).parent = T.locate mount (T.parent d) := if_neg hboundary
    have hne : (T.fragment mount d).parent ≠ .nowhere := hparent ▸ locate_ne_nowhere hmem
    simp only [List.forall_mem_cons, List.map_cons]
    constructor
    · rintro (⟨hf, hnone⟩ | ⟨hf, -, hrest⟩)
      · exact absurd hnone (own hd hf ▸ hne)
      · obtain rfl := own hd hf
        obtain ⟨hstored, rfl⟩ := (ih hmem).1 (hparent ▸ hrest)
        exact ⟨⟨hf ▸ rfl, hstored⟩, rfl⟩
    · rintro ⟨⟨hstored, habove⟩, rfl⟩
      obtain ⟨f, hf⟩ := Option.isSome_iff_exists.1 hstored
      obtain rfl := own hd hf
      exact .link hf hne (hparent ▸ (ih hmem).2 ⟨habove, rfl⟩)

end FixedTree

end FsTrace
