import FsTrace.Resolver.FragmentStore
import Mathlib.Tactic

/-!
# Trees that stay as they are

A `FixedTree` is an accessor together with entries whose reads never fail and never change: each
has a name, a parent and an inode of its own, and from each of them the parent links lead to a
boundary, an entry above which nothing is visited.

* `Listing`: names, parents and inodes; `Listing.Leads d chain`: the parent links from `d` lead
  through `chain` to the first boundary. A chain is determined by where it starts
  (`Listing.Leads.unique`) and visits no entry twice (`Listing.Leads.nodup`);
* `FixedTree`, and `FixedTree.ascent_eq`: the ascent from an entry is its chain, as far as the
  depth allows;
* `FixedTree.locate`, `FixedTree.fragment`: where an entry is stored, and as what;
* `FixedTree.numbered`: a tree of numbers, in which no parent is greater than its child.
-/

namespace FsTrace

/-- What can be read of each entry. -/
structure Listing where
  name : Handle → Bytes
  parent : Handle → Handle
  inode : Handle → Inode

namespace Listing

variable (l : Listing)

/-- An entry is a boundary when it is its own parent, has no name, or is named like a root. -/
def IsBoundary (d : Handle) : Prop :=
  l.parent d = d ∨ l.name d = [] ∨ (l.name d).head? = some Bytes.slash

instance (d : Handle) : Decidable (l.IsBoundary d) := by
  unfold IsBoundary
  infer_instance

/-- The parent links from an entry lead through these entries to the first boundary. -/
inductive Leads : Handle → List Handle → Prop
  | boundary {d : Handle} : l.IsBoundary d → Leads d [d]
  | step {d : Handle} {above : List Handle} :
    ¬ l.IsBoundary d → Leads (l.parent d) above → Leads d (d :: above)

variable {l} {d e : Handle} {chain : List Handle}

theorem Leads.head_mem (h : l.Leads d chain) : d ∈ chain := by
  cases h <;> exact List.mem_cons_self

theorem Leads.unique (h : l.Leads d chain) {chain' : List Handle} (h' : l.Leads d chain') :
    chain = chain' := by
  induction h generalizing chain' with
  | boundary hd =>
    cases h' with
    | boundary => rfl
    | step hd' => exact absurd hd hd'
  | step hd _ ih =>
    cases h' with
    | boundary hd' => exact absurd hd' hd
    | step _ habove => rw [ih habove]

/-- From an entry on a chain, the rest of the chain leads to the boundary. -/
theorem Leads.exists_of_mem (h : l.Leads d chain) (he : e ∈ chain) :
    ∃ rest, l.Leads e rest ∧ rest ⊆ chain ∧ rest.length ≤ chain.length := by
  induction h with
  | boundary hd =>
    obtain rfl := List.mem_singleton.1 he
    exact ⟨_, .boundary hd, List.Subset.refl _, le_rfl⟩
  | step hd habove ih =>
    rcases List.mem_cons.1 he with rfl | he
    · exact ⟨_, .step hd habove, List.Subset.refl _, le_rfl⟩
    · obtain ⟨rest, hrest, hsubset, hlength⟩ := ih he
      exact ⟨rest, hrest, List.subset_cons_of_subset _ hsubset, Nat.le_succ_of_le hlength⟩

/-- No entry is visited twice. -/
theorem Leads.nodup (h : l.Leads d chain) : chain.Nodup := by
  induction h with
  | boundary => exact List.nodup_singleton _
  | step hd habove ih =>
    refine List.nodup_cons.2 ⟨fun hmem => ?_, ih⟩
    -- an entry above itself would have two chains of different lengths
    obtain ⟨rest, hrest, -, hlength⟩ := habove.exists_of_mem hmem
    have := congrArg List.length (hrest.unique (.step hd habove))
    simp only [List.length_cons] at this
    omega

variable (l) in
/-- An entry lies on the chain of another. -/
def Reaches (d e : Handle) : Prop := ∃ chain, l.Leads d chain ∧ e ∈ chain

theorem Leads.reaches_iff (h : l.Leads d chain) : l.Reaches d e ↔ e ∈ chain :=
  ⟨fun ⟨_, h', he⟩ => h.unique h' ▸ he, fun he => ⟨chain, h, he⟩⟩

theorem Reaches.trans {a : Handle} (hda : l.Reaches d a) (hae : l.Reaches a e) :
    l.Reaches d e := by
  obtain ⟨chain, hchain, ha⟩ := hda
  obtain ⟨rest, hrest, hsubset, -⟩ := hchain.exists_of_mem ha
  exact ⟨chain, hchain, hsubset (hrest.reaches_iff.1 hae)⟩

theorem reaches_of_boundary (hd : l.IsBoundary d) : l.Reaches d e ↔ e = d := by
  rw [(Leads.boundary hd).reaches_iff, List.mem_singleton]

theorem Reaches.of_parent (hd : ¬ l.IsBoundary d) (h : l.Reaches (l.parent d) e) :
    l.Reaches d e := by
  obtain ⟨above, habove, he⟩ := h
  exact ⟨d :: above, .step hd habove, List.mem_cons_of_mem _ he⟩

theorem Reaches.eq_or_parent (hd : ¬ l.IsBoundary d) (h : l.Reaches d e) :
    e = d ∨ l.Reaches (l.parent d) e := by
  obtain ⟨chain, hchain, he⟩ := h
  cases hchain with
  | boundary hb => exact absurd hb hd
  | step _ habove => exact (List.mem_cons.1 he).imp_right fun he => ⟨_, habove, he⟩

theorem not_reaches_parent (hd : ¬ l.IsBoundary d) : ¬ l.Reaches (l.parent d) d := by
  rintro ⟨above, habove, hmem⟩
  exact (List.nodup_cons.1 (Leads.step hd habove).nodup).1 hmem

/-- The numbers as entries that are all named `a`. -/
def numbered (parents : Nat → Nat) : Listing where
  name _ := [97]
  parent d := ⟨parents d.id⟩
  inode d := d.id + 1

theorem isBoundary_numbered_iff {parents : Nat → Nat} {n : Nat} :
    (numbered parents).IsBoundary ⟨n⟩ ↔ parents n = n := by
  simp [IsBoundary, numbered, Bytes.slash]

theorem exists_leads_numbered {parents : Nat → Nat} (h : ∀ n, parents n ≤ n) (n : Nat) :
    ∃ chain, (numbered parents).Leads ⟨n⟩ chain := by
  induction n using Nat.strong_induction_on with
  | _ n ih =>
    by_cases hroot : parents n = n
    · exact ⟨_, .boundary (isBoundary_numbered_iff.2 hroot)⟩
    · obtain ⟨above, habove⟩ := ih _ (lt_of_le_of_ne (h n) hroot)
      exact ⟨_, .step (fun hb => hroot (isBoundary_numbered_iff.1 hb)) habove⟩

theorem length_le_of_leads_numbered {parents : Nat → Nat} (h : ∀ n, parents n ≤ n)
    (hchain : (numbered parents).Leads d chain) : chain.length ≤ d.id + 1 := by
  induction hchain with
  | boundary _ => exact Nat.le_add_left _ _
  | @step d above hboundary _ ih =>
    have hne : parents d.id ≠ d.id := fun hroot => hboundary (isBoundary_numbered_iff.2 hroot)
    have hlt : parents d.id < d.id := lt_of_le_of_ne (h d.id) hne
    have hle : above.length ≤ parents d.id + 1 := ih
    rw [List.length_cons]
    omega

end Listing

theorem climb_still (a : Accessor) (d : Handle) (buffer : NameBuffer) (depth : Nat) :
    climb (.still a) d buffer (depth + 1) =
      if (readLevel a d buffer).1.isBoundary then [(readLevel a d buffer).1]
      else (readLevel a d buffer).1 ::
        climb (.still a) (readLevel a d buffer).1.parent (readLevel a d buffer).2 depth := rfl

/-- The name that is read back, whatever bytes were stored. -/
theorem Fragment.name_ofName_eq (parent : Location) (name : Bytes) :
    (Fragment.ofName parent name).name = Bytes.terminated (name.take (nameSize - 1)) := by
  refine ByteField.text_ofBytes_eq ?_
  simp only [List.length_take, nameSize]
  omega

theorem Fragment.name_ofName {parent : Location} {name : Bytes} (hnul : 0 ∉ name) :
    (Fragment.ofName parent name).name = name.take (nameSize - 1) :=
  (name_ofName_eq parent name).trans
    (Bytes.terminated_of_notMem fun hmem => hnul (List.mem_of_mem_take hmem))

/-- Entries whose reads never fail and never change. -/
structure FixedTree extends Listing where
  accessor : Accessor
  entries : Set Handle
  read_name : ∀ d ∈ entries, ∀ size,
    accessor.name d size = some ⟨(name d).take size, ((name d).take size).length⟩
  read_parent : ∀ d ∈ entries, accessor.parent d = some (parent d)
  read_inode : ∀ d ∈ entries, accessor.inode d = some (inode d)
  inode_ne_zero : ∀ d ∈ entries, inode d ≠ 0
  inode_injOn : Set.InjOn inode entries
  parent_mem : ∀ d ∈ entries, ¬ toListing.IsBoundary d → parent d ∈ entries
  leads : ∀ d ∈ entries, ∃ chain, toListing.Leads d chain

namespace FixedTree

variable (T : FixedTree)

/-- No name holds a NUL. -/
def NulFree : Prop := ∀ d ∈ T.entries, 0 ∉ T.name d

/-- Every chain is short enough for one ascent. -/
def Shallow : Prop := ∀ d ∈ T.entries, ∀ chain, T.Leads d chain → chain.length ≤ maxPathDepth

/-- What an ascent reads of an entry. -/
def level (d : Handle) : Level where
  entry := d
  name := (T.name d).take (nameSize - 1)
  inode := T.inode d
  parent := T.parent d
  parentInode := T.accessor.inodeOf (T.parent d)

/-- Where an entry is stored. -/
def locate (mount : MountId) (d : Handle) : Location := ⟨T.inode d, mount⟩

/-- Where the parent of an entry is stored, or nowhere above a boundary. -/
def parentLocation (mount : MountId) (d : Handle) : Location :=
  if T.IsBoundary d then .nowhere else T.locate mount (T.parent d)

/-- What is stored of an entry: its name and the location of its parent. -/
def fragment (mount : MountId) (d : Handle) : Fragment :=
  .ofName (T.parentLocation mount d) (T.name d)

variable {T} {d e : Handle} {chain : List Handle} {mount : MountId}

theorem mem_of_leads (hd : d ∈ T.entries) (h : T.Leads d chain) (he : e ∈ chain) :
    e ∈ T.entries := by
  induction h with
  | boundary => exact List.mem_singleton.1 he ▸ hd
  | step hboundary _ ih =>
    rcases List.mem_cons.1 he with rfl | he
    · exact hd
    · exact ih (T.parent_mem _ hd hboundary) he

theorem mem_of_reaches (hd : d ∈ T.entries) (h : T.Reaches d e) : e ∈ T.entries := by
  obtain ⟨chain, hchain, he⟩ := h
  exact mem_of_leads hd hchain he

theorem reaches_refl (hd : d ∈ T.entries) : T.Reaches d d := by
  obtain ⟨chain, hchain⟩ := T.leads d hd
  exact ⟨chain, hchain, hchain.head_mem⟩

/-! ### Ascents -/

theorem inodeOf_eq (hd : d ∈ T.entries) : T.accessor.inodeOf d = T.inode d := by
  rw [Accessor.inodeOf, T.read_inode d hd, Option.getD_some]

theorem isBoundary_level (hd : d ∈ T.entries) :
    (T.level d).isBoundary = true ↔ T.IsBoundary d := by
  have hparent : T.inode d = T.accessor.inodeOf (T.parent d) → T.IsBoundary d := by
    intro hinode
    by_contra hboundary
    have hmem := T.parent_mem d hd hboundary
    rw [inodeOf_eq hmem] at hinode
    exact hboundary (Or.inl (T.inode_injOn hd hmem hinode).symm)
  have hname : ((T.name d).take (nameSize - 1)).isEmpty = true ↔ T.name d = [] := by
    simp [nameSize]
  have hhead : ((T.name d).take (nameSize - 1)).head? = (T.name d).head? := by
    rw [List.head?_take, if_neg (by simp [nameSize])]
  simp only [Level.isBoundary, level, decide_eq_true_eq, hname, hhead]
  constructor
  · rintro (h | h | h | h)
    · exact Or.inl h
    · exact hparent h
    · exact Or.inr (Or.inl h)
    · exact Or.inr (Or.inr h)
  · rintro (h | h | h)
    · exact Or.inl h
    · exact Or.inr (Or.inr (Or.inl h))
    · exact Or.inr (Or.inr (Or.inr h))

/-- What is read of a name does not depend on what the buffer held before. -/
theorem fst_readName {a : Accessor} {name : Bytes}
    (h : a.name d (nameSize - 1) =
      some ⟨name.take (nameSize - 1), (name.take (nameSize - 1)).length⟩) (buffer : NameBuffer) :
    (readName a d buffer).1 = name.take (nameSize - 1) := by
  have hlength : (name.take (nameSize - 1)).length ≤ nameSize - 1 := List.length_take_le _ _
  simp only [readName, h]
  rw [ByteField.write_of_le _ (by rwa [Nat.zero_add])]
  simp

theorem readLevel_eq (hd : d ∈ T.entries) (buffer : NameBuffer) :
    (readLevel T.accessor d buffer).1 = T.level d := by
  simp only [readLevel, fst_readName (T.read_name d hd _), level, inodeOf_eq hd,
    Accessor.parentOf, T.read_parent d hd, Option.getD_some]

/-- The ascent from an entry is its chain, as far as the depth allows. -/
theorem climb_eq (h : T.Leads d chain) (hd : d ∈ T.entries) (buffer : NameBuffer) (depth : Nat) :
    climb (.still T.accessor) d buffer depth = (chain.take depth).map T.level := by
  induction depth generalizing d chain buffer with
  | zero => rfl
  | succ depth ih =>
    rw [climb_still, readLevel_eq hd buffer]
    cases h with
    | boundary hboundary =>
      rw [if_pos ((isBoundary_level hd).2 hboundary)]
      simp
    | step hboundary habove =>
      rw [if_neg (fun hb => hboundary ((isBoundary_level hd).1 hb)),
        show (T.level d).parent = T.parent d from rfl, ih habove (T.parent_mem d hd hboundary)]
      rfl

theorem ascent_eq (h : T.Leads d chain) (hd : d ∈ T.entries) :
    ascent (.still T.accessor) d = (chain.take maxPathDepth).map T.level :=
  climb_eq h hd _ _

/-! ### Locations and fragments -/

theorem hasNoInode_locate (hd : d ∈ T.entries) : (T.locate mount d).hasNoInode = false := by
  simp [locate, Location.hasNoInode, T.inode_ne_zero d hd]

theorem locate_ne_nowhere (hd : d ∈ T.entries) : T.locate mount d ≠ .nowhere := by
  intro h
  exact T.inode_ne_zero d hd (congrArg Location.inode h)

theorem locate_inj {mount' : MountId} (hd : d ∈ T.entries) (he : e ∈ T.entries) :
    T.locate mount d = T.locate mount' e ↔ mount = mount' ∧ d = e := by
  constructor
  · intro h
    exact ⟨congrArg Location.mount h, T.inode_injOn hd he (congrArg Location.inode h)⟩
  · rintro ⟨rfl, rfl⟩
    rfl

theorem isNowhere_parentLocation (hd : d ∈ T.entries) :
    (T.parentLocation mount d).isNowhere = true ↔ T.IsBoundary d := by
  rw [Location.isNowhere_iff, parentLocation]
  split
  · next h => exact iff_of_true rfl h
  · next h => exact iff_of_false (locate_ne_nowhere (T.parent_mem d hd h)) h

/-- A walk finds the location of the parent in what it read. -/
theorem parentLocation_level (hd : d ∈ T.entries) :
    FragmentStore.parentLocation mount (T.level d) = T.parentLocation mount d := by
  rw [FragmentStore.parentLocation, parentLocation]
  by_cases h : T.IsBoundary d
  · rw [if_pos ((isBoundary_level hd).2 h), if_pos h]
  · rw [if_neg (fun hb => h ((isBoundary_level hd).1 hb)), if_neg h, locate,
      ← inodeOf_eq (T.parent_mem d hd h)]
    rfl

/-- Cutting a name for a walk and cutting it for a fragment is the same cut. -/
theorem fragment_level (hd : d ∈ T.entries) :
    Fragment.ofName (FragmentStore.parentLocation mount (T.level d)) (T.level d).name =
      T.fragment mount d := by
  rw [parentLocation_level hd, fragment, Fragment.ofName, Fragment.ofName, level,
    List.take_take, Nat.min_self]

@[simp] theorem parent_fragment : (T.fragment mount d).parent = T.parentLocation mount d := rfl

theorem name_fragment (hnul : 0 ∉ T.name d) :
    (T.fragment mount d).name = (T.name d).take (nameSize - 1) := Fragment.name_ofName hnul

/-! ### Trees of numbers -/

/-- The tree of numbers in which no parent is greater than its child. -/
def numbered (parents : Nat → Nat) (hparents : ∀ n, parents n ≤ n) : FixedTree where
  toListing := .numbered parents
  accessor :=
    { name := fun _ size => some ⟨([97] : Bytes).take size, (([97] : Bytes).take size).length⟩
      parent := fun d => some ⟨parents d.id⟩
      inode := fun d => some (d.id + 1)
      mount := fun _ => some 1
      device := fun _ => some 1 }
  entries := Set.univ
  read_name _ _ _ := rfl
  read_parent _ _ := rfl
  read_inode _ _ := rfl
  inode_ne_zero _ _ := Nat.succ_ne_zero _
  inode_injOn := by
    rintro ⟨a⟩ _ ⟨b⟩ _ h
    exact congrArg Handle.mk (Nat.succ.inj h)
  parent_mem _ _ _ := Set.mem_univ _
  leads d _ := Listing.exists_leads_numbered hparents d.id

theorem nulFree_numbered {parents : Nat → Nat} {hparents : ∀ n, parents n ≤ n} :
    (numbered parents hparents).NulFree := by
  intro d _
  simp [numbered, Listing.numbered]

end FixedTree

end FsTrace
