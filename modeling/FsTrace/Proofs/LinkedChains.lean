import FsTrace.Proofs.SharedChains

/-!
# Stored entries and their parents

As long as nothing is evicted, a stored entry has its parent stored as well. While a walk is on its
way up there is one exception, the key that it comes to next.

* `FragmentStore.written`: the fragments that a walk writes, under their keys. Without evictions
  they tell what is stored afterwards (`peek?_storeLevels`);
* `FixedTree.Linked`: every stored fragment of an entry is a cut mark, or its own with its parent
  stored or awaited. Every walk links what it awaited (`linked_storeLevels`), also one that runs out
  of depth;
* `FixedTree.Marked`: a cut mark is stored in place of an entry. Stored links lead on along the
  chain (`follows_chain`), up to the first marked entry (`follows_marked`).
-/

namespace FsTrace

/-! ### Detached fragments -/

namespace Fragment

@[simp] theorem name_detached : detached.name = [] := by
  rw [name, detached, ofName]
  exact ByteField.text_ofBytes (by decide) (by simp)

@[simp] theorem isDetached_detached : detached.isDetached = true := by decide

/-- A fragment without parent is detached just when it has no name. -/
theorem isDetached_iff {f : Fragment} (h : f.parent = .nowhere) :
    f.isDetached = true ↔ f.name = [] := by
  rw [isDetached, h, Location.isNowhere_nowhere, Bool.true_and, name, ByteField.text,
    ByteField.first?, Bytes.terminated]
  have hlength := f.field.length_bytes
  cases hbytes : f.field.bytes with
  | nil => simp [hbytes, nameSize] at hlength
  | cons b rest => by_cases hb : b = 0 <;> simp [hb]

theorem parent_of_isDetached {f : Fragment} (h : f.isDetached = true) : f.parent = .nowhere := by
  rw [isDetached, Bool.and_eq_true] at h
  exact Location.isNowhere_iff.1 h.1

end Fragment

namespace FragmentStore

variable {mount : MountId} {s s' : FragmentStore} {key k : Location} {fragment : Fragment}
  {levels : List Level}

/-! ### What a walk writes -/

/-- The fragments that a walk writes, in order, each with its key. -/
def written (mount : MountId) (s : FragmentStore) (key : Location) :
    List Level → List (Location × Fragment)
  | [] => if (s.table.peek? key).isSome then [] else [(key, .detached)]
  | level :: above =>
    if s.endsAt key then []
    else
      let next := parentLocation mount level
      (key, .ofName next level.name) ::
        if next.isNowhere then [] else written mount (s.visit mount key level) next above

theorem written_of_stored (h : s.endsAt key = true) (level : Level) (above : List Level) :
    written mount s key (level :: above) = [] := if_pos h

theorem written_of_missing (h : s.endsAt key = false) (level : Level) (above : List Level) :
    written mount s key (level :: above) =
      (key, .ofName (parentLocation mount level) level.name) ::
        if (parentLocation mount level).isNowhere then []
        else written mount (s.visit mount key level) (parentLocation mount level) above :=
  if_neg (ne_true_of_eq_false h)

/-- What some writes leave under a key, given what was there. -/
def leave (k : Location) (held : Option Fragment) : List (Location × Fragment) → Option Fragment
  | [] => held
  | w :: ws => leave k (if w.1 = k then some w.2 else held) ws

variable {held : Option Fragment} {f : Fragment} {ws ws' : List (Location × Fragment)}

theorem leave_append : leave k held (ws ++ ws') = leave k (leave k held ws) ws' := by
  induction ws generalizing held with
  | nil => rfl
  | cons w ws ih => exact ih

/-- What is left under a key is what was written there last, or what was there before. -/
theorem leave_eq_some_iff :
    leave k held ws = some f ↔
      (∃ before after, ws = before ++ (k, f) :: after ∧ ∀ w ∈ after, w.1 ≠ k) ∨
        held = some f ∧ ∀ w ∈ ws, w.1 ≠ k := by
  induction ws generalizing held with
  | nil => simp [leave]
  | cons w ws ih =>
    rw [leave, ih]
    constructor
    · rintro (⟨before, after, rfl, hafter⟩ | ⟨hheld, hws⟩)
      · exact Or.inl ⟨w :: before, after, rfl, hafter⟩
      · split at hheld
        · next hw =>
          obtain ⟨key, fragment⟩ := w
          obtain rfl : key = k := hw
          obtain rfl := Option.some.inj hheld
          exact Or.inl ⟨[], ws, rfl, hws⟩
        · next hw => exact Or.inr ⟨hheld, List.forall_mem_cons.2 ⟨hw, hws⟩⟩
    · rintro (⟨before, after, hsplit, hafter⟩ | ⟨rfl, hws⟩)
      · cases before with
        | nil =>
          obtain ⟨rfl, rfl⟩ := List.cons.inj hsplit
          exact Or.inr ⟨if_pos rfl, hafter⟩
        | cons first before => exact Or.inl ⟨before, after, (List.cons.inj hsplit).2, hafter⟩
      · obtain ⟨hw, hws⟩ := List.forall_mem_cons.1 hws
        exact Or.inr ⟨if_neg hw, hws⟩

theorem isSome_leave (h : held.isSome) : (leave k held ws).isSome := by
  induction ws generalizing held with
  | nil => exact h
  | cons w ws ih =>
    refine ih ?_
    split
    · rfl
    · exact h

/-! ### Walks that evict nothing -/

theorem evictions_le_put : s.table.evictions ≤ (s.put key fragment).table.evictions := by
  rw [put, Table.evictions_insert]
  exact Nat.le_add_right _ _

theorem evictions_le_storeLevels :
    s.table.evictions ≤ (storeLevels mount s key levels).2.table.evictions := by
  rw [(writes_storeLevels levels).evictions_eq]
  exact Nat.le_add_right _ _

theorem evictions_le_look_put :
    s.table.evictions ≤ ((s.look key).put key fragment).table.evictions :=
  evictions_look.symm.trans_le evictions_le_put

theorem evictions_le_visit {level : Level} :
    s.table.evictions ≤ (s.visit mount key level).table.evictions := evictions_le_look_put

theorem peek?_put_of_kept (h : (s.put key fragment).table.evictions ≤ s.table.evictions) :
    (s.put key fragment).table.peek? k = if key = k then some fragment else s.table.peek? k := by
  split
  · next hk =>
    subst hk
    exact peek?_put_self
  · next hk =>
    refine Table.peek?_insert_of_ne hk ?_
    rw [Table.fst_insert_eq_none h]
    simp

theorem peek?_look_put_of_kept
    (h : ((s.look key).put key fragment).table.evictions ≤ s.table.evictions) :
    ((s.look key).put key fragment).table.peek? k =
      if key = k then some fragment else s.table.peek? k := by
  rw [peek?_put_of_kept (h.trans_eq evictions_look.symm), peek?_look]

theorem peek?_visit_of_kept {level : Level}
    (h : (s.visit mount key level).table.evictions ≤ s.table.evictions) :
    (s.visit mount key level).table.peek? k =
      if key = k then some (.ofName (parentLocation mount level) level.name)
      else s.table.peek? k := peek?_look_put_of_kept h

/-- What is stored after a walk that evicts nothing. -/
theorem peek?_storeLevels
    (h : (storeLevels mount s key levels).2.table.evictions ≤ s.table.evictions) :
    (storeLevels mount s key levels).2.table.peek? k =
      leave k (s.table.peek? k) (written mount s key levels) := by
  induction levels generalizing s key with
  | nil =>
    rw [storeLevels] at h ⊢
    by_cases hstored : (s.table.peek? key).isSome
    · simp only [written, if_pos hstored, markCut_of_stored hstored, leave, peek?_look]
    · simp only [markCut_of_absent hstored] at h ⊢
      rw [written, if_neg hstored, peek?_look_put_of_kept h]
      rfl
  | cons level above ih =>
    cases hends : s.endsAt key with
    | true =>
      rw [storeLevels_of_stored hends, written_of_stored hends, leave]
      exact peek?_look k
    | false =>
      rw [storeLevels_of_missing hends] at h ⊢
      rw [written_of_missing hends, leave]
      by_cases hroot : (parentLocation mount level).isNowhere = true
      · rw [if_pos hroot] at h ⊢
        rw [if_pos hroot, peek?_visit_of_kept h, leave]
      · rw [if_neg hroot] at h ⊢
        have hvisit : (s.visit mount key level).table.evictions ≤ s.table.evictions :=
          evictions_le_storeLevels.trans h
        rw [if_neg hroot, ih (h.trans evictions_le_visit), peek?_visit_of_kept hvisit]

/-- A walk that evicts nothing keeps all keys. -/
theorem isSome_storeLevels
    (h : (storeLevels mount s key levels).2.table.evictions ≤ s.table.evictions)
    (hstored : (s.table.peek? k).isSome) :
    ((storeLevels mount s key levels).2.table.peek? k).isSome := by
  rw [peek?_storeLevels h]
  exact isSome_leave hstored

variable {view : View} {d : Handle} {leaf : Location}

theorem evictions_le_resolve :
    s.table.evictions ≤ (s.resolve view d leaf).2.table.evictions := by
  unfold resolve
  split
  · exact le_rfl
  · exact evictions_le_storeLevels

theorem isSome_resolve (h : (s.resolve view d leaf).2.table.evictions ≤ s.table.evictions)
    (hstored : (s.table.peek? k).isSome) :
    ((s.resolve view d leaf).2.table.peek? k).isSome := by
  unfold resolve at h ⊢
  split
  · exact hstored
  · next hinode => exact isSome_storeLevels (by rwa [if_neg hinode] at h) hstored

/-! ### Dropped fragments -/

theorem evictions_forget : (s.forget leaf).table.evictions = s.table.evictions :=
  Table.evictions_remove _ _

theorem capacity_forget : (s.forget leaf).table.capacity = s.table.capacity :=
  Table.capacity_remove _ _

theorem Unswept.forget (h : s.Unswept) : (s.forget leaf).Unswept :=
  ⟨evictions_forget.trans h.evictions_eq, (Table.size_remove_le _ _).trans h.size_le⟩

theorem peek?_forget :
    (s.forget key).table.peek? k = if key = k then none else s.table.peek? k := by
  split
  · next hk =>
    subst hk
    exact Table.peek?_remove_self _ _
  · next hk => exact Table.peek?_remove_of_ne _ hk

end FragmentStore

namespace FixedTree

variable {T : FixedTree} {mount : MountId} {s s' : FragmentStore} {d e : Handle}
  {chain : List Handle} {key k : Location} {f : Fragment} {awaited : Option Location}

/-! ### What a walk on a chain writes -/

/-- A walk that finds a boundary missing stores it and ends there. -/
theorem storeLevels_boundary (hd : d ∈ T.entries) (hboundary : T.IsBoundary d)
    (hends : s.endsAt (T.locate mount d) = false) (above : List Level) :
    FragmentStore.storeLevels mount s (T.locate mount d) (T.level d :: above) =
      (false, T.store mount s d) := by
  rw [FragmentStore.storeLevels_of_missing hends, parentLocation_level hd,
    if_pos ((isNowhere_parentLocation hd).2 hboundary), visit_level hd]

/-- A walk that finds any other entry missing stores it and goes on with its parent. -/
theorem storeLevels_step (hd : d ∈ T.entries) (hboundary : ¬ T.IsBoundary d)
    (hends : s.endsAt (T.locate mount d) = false) (above : List Level) :
    FragmentStore.storeLevels mount s (T.locate mount d) (T.level d :: above) =
      FragmentStore.storeLevels mount (T.store mount s d) (T.locate mount (T.parent d)) above := by
  have hnext : T.parentLocation mount d = T.locate mount (T.parent d) := if_neg hboundary
  rw [FragmentStore.storeLevels_of_missing hends, parentLocation_level hd,
    if_neg (mt (isNowhere_parentLocation hd).1 hboundary), visit_level hd, hnext]

theorem written_boundary (hd : d ∈ T.entries) (hboundary : T.IsBoundary d)
    (hends : s.endsAt (T.locate mount d) = false) (above : List Level) :
    FragmentStore.written mount s (T.locate mount d) (T.level d :: above) =
      [(T.locate mount d, T.fragment mount d)] := by
  rw [FragmentStore.written_of_missing hends, fragment_level hd, parentLocation_level hd,
    if_pos ((isNowhere_parentLocation hd).2 hboundary)]

theorem written_step (hd : d ∈ T.entries) (hboundary : ¬ T.IsBoundary d)
    (hends : s.endsAt (T.locate mount d) = false) (above : List Level) :
    FragmentStore.written mount s (T.locate mount d) (T.level d :: above) =
      (T.locate mount d, T.fragment mount d) ::
        FragmentStore.written mount (T.store mount s d) (T.locate mount (T.parent d)) above := by
  have hnext : T.parentLocation mount d = T.locate mount (T.parent d) := if_neg hboundary
  rw [FragmentStore.written_of_missing hends, fragment_level hd, parentLocation_level hd,
    if_neg (mt (isNowhere_parentLocation hd).1 hboundary), visit_level hd, hnext]

theorem exists_levels (h : T.Leads d chain) (depth : Nat) :
    ∃ above, (chain.take (depth + 1)).map T.level = T.level d :: above := by
  cases h <;> exact ⟨_, rfl⟩

/-- A walk writes fragments of the entries on the chain. If it runs out of depth, it also writes a
cut mark in place of one of them. -/
theorem mem_written (h : T.Leads d chain) (hd : d ∈ T.entries) (depth : Nat)
    (hmem : (k, f) ∈ FragmentStore.written mount s (T.locate mount d)
      ((chain.take depth).map T.level)) :
    ∃ e, T.Reaches d e ∧ k = T.locate mount e ∧ (f = T.fragment mount e ∨ f = .detached ∧
      (FragmentStore.storeLevels mount s (T.locate mount d)
        ((chain.take depth).map T.level)).1 = true) := by
  induction depth generalizing s d chain with
  | zero =>
    rw [List.take_zero, List.map_nil, FragmentStore.written] at hmem
    split at hmem
    · cases hmem
    · obtain ⟨rfl, rfl⟩ := Prod.mk.inj (List.mem_singleton.1 hmem)
      exact ⟨d, reaches_refl hd, rfl, Or.inr ⟨rfl, rfl⟩⟩
  | succ depth ih =>
    cases hends : s.endsAt (T.locate mount d) with
    | true =>
      obtain ⟨above, habove⟩ := exists_levels h depth
      rw [habove, FragmentStore.written_of_stored hends] at hmem
      cases hmem
    | false =>
      cases h with
      | boundary hboundary =>
        simp only [List.take_succ_cons, List.take_nil, List.map_cons, List.map_nil] at hmem
        rw [written_boundary hd hboundary hends] at hmem
        obtain ⟨rfl, rfl⟩ := Prod.mk.inj (List.mem_singleton.1 hmem)
        exact ⟨d, reaches_refl hd, rfl, Or.inl rfl⟩
      | step hboundary habove =>
        simp only [List.take_succ_cons, List.map_cons] at hmem ⊢
        rw [written_step hd hboundary hends] at hmem
        rw [storeLevels_step hd hboundary hends]
        rcases List.mem_cons.1 hmem with hfirst | hmem
        · obtain ⟨rfl, rfl⟩ := Prod.mk.inj hfirst
          exact ⟨d, reaches_refl hd, rfl, Or.inl rfl⟩
        · obtain ⟨e, he, hrest⟩ := ih habove (T.parent_mem d hd hboundary) hmem
          exact ⟨e, he.of_parent hboundary, hrest⟩

/-! ### Links -/

/-- Every stored fragment of an entry is a cut mark, or it is the entry's own and its parent is
stored as well, or awaited. -/
def Linked (T : FixedTree) (s : FragmentStore) (awaited : Option Location) : Prop :=
  ∀ mount, ∀ d ∈ T.entries, ∀ f, s.table.peek? (T.locate mount d) = some f →
    f = .detached ∨ f = T.fragment mount d ∧ (T.IsBoundary d ∨
      (s.table.peek? (T.locate mount (T.parent d))).isSome ∨
        awaited = some (T.locate mount (T.parent d)))

theorem linked_new (capacity : Nat) : T.Linked (.new capacity) none := by
  intro mount d _ f hf
  rw [FragmentStore.new, Table.peek?_new] at hf
  cases hf

theorem Linked.congr (hs : T.Linked s awaited)
    (hsame : ∀ k, s'.table.peek? k = s.table.peek? k) : T.Linked s' awaited := by
  intro mount d hd f hf
  rw [hsame] at hf ⊢
  exact hs mount d hd f hf

theorem Linked.mono (hs : T.Linked s none) : T.Linked s awaited := by
  intro mount d hd f hf
  refine (hs mount d hd f hf).imp_right fun h => ⟨h.1, h.2.imp_right fun h => Or.inl ?_⟩
  exact h.resolve_right (by simp)

/-- What is stored need not be awaited. -/
theorem Linked.of_stored (hs : T.Linked s (some key)) (hstored : (s.table.peek? key).isSome) :
    T.Linked s none := by
  intro mount d hd f hf
  refine (hs mount d hd f hf).imp_right fun h => ⟨h.1, h.2.imp_right fun h => Or.inl ?_⟩
  rcases h with h | h
  · exact h
  · exact Option.some.inj h ▸ hstored

/-- A put under the awaited key: a cut mark, or the entry's own fragment. -/
theorem Linked.put (hs : T.Linked s (some key))
    (hsame : ∀ k, s'.table.peek? k = if key = k then some f else s.table.peek? k)
    (hown : ∀ mount, ∀ d ∈ T.entries, T.locate mount d = key → f = .detached ∨
      f = T.fragment mount d ∧ (T.IsBoundary d ∨ awaited = some (T.locate mount (T.parent d)))) :
    T.Linked s' awaited := by
  intro mount d hd g hg
  have hstays : ∀ k, (s.table.peek? k).isSome → (s'.table.peek? k).isSome := by
    intro k hk
    rw [hsame]
    split
    · rfl
    · exact hk
  rw [hsame] at hg
  split at hg
  · next hkey =>
    obtain rfl := Option.some.inj hg
    refine (hown mount d hd hkey.symm).imp_right fun h => ⟨h.1, h.2.imp_right Or.inr⟩
  · refine (hs mount d hd g hg).imp_right fun h => ⟨h.1, h.2.imp_right fun h => Or.inl ?_⟩
    rcases h with h | h
    · exact hstays _ h
    · rw [hsame, if_pos (Option.some.inj h)]
      rfl

/-- Storing an awaited entry: now its parent is awaited. -/
theorem Linked.store (hs : T.Linked s (some (T.locate mount d))) (hd : d ∈ T.entries)
    (hkept : (T.store mount s d).table.evictions ≤ s.table.evictions)
    (hnext : T.IsBoundary d ∨ awaited = some (T.locate mount (T.parent d))) :
    T.Linked (T.store mount s d) awaited := by
  refine hs.put (fun k => FragmentStore.peek?_look_put_of_kept hkept) fun mount' d' hd' hkey => ?_
  obtain ⟨rfl, rfl⟩ := (locate_inj hd' hd).1 hkey
  exact Or.inr ⟨rfl, hnext⟩

/-- A walk that evicts nothing stores what was awaited, and links it to what is above. -/
theorem linked_storeLevels (h : T.Leads d chain) (hd : d ∈ T.entries) (depth : Nat)
    (hkept : (FragmentStore.storeLevels mount s (T.locate mount d)
      ((chain.take depth).map T.level)).2.table.evictions ≤ s.table.evictions)
    (hs : T.Linked s (some (T.locate mount d))) :
    T.Linked (FragmentStore.storeLevels mount s (T.locate mount d)
        ((chain.take depth).map T.level)).2 none ∧
      ((FragmentStore.storeLevels mount s (T.locate mount d)
        ((chain.take depth).map T.level)).2.table.peek? (T.locate mount d)).isSome := by
  induction depth generalizing s d chain with
  | zero =>
    rw [List.take_zero, List.map_nil, FragmentStore.storeLevels] at hkept ⊢
    by_cases hstored : (s.table.peek? (T.locate mount d)).isSome
    · have hlooked : T.Linked (s.look (T.locate mount d)) none :=
        (hs.of_stored hstored).congr FragmentStore.peek?_look
      simp only [FragmentStore.markCut_of_stored hstored, FragmentStore.peek?_look]
      exact ⟨hlooked, hstored⟩
    · simp only [FragmentStore.markCut_of_absent hstored] at hkept ⊢
      refine ⟨hs.put (fun _ => FragmentStore.peek?_look_put_of_kept hkept)
          fun _ _ _ _ => Or.inl rfl,
        ?_⟩
      rw [FragmentStore.peek?_put_self]
      rfl
  | succ depth ih =>
    cases hends : s.endsAt (T.locate mount d) with
    | true =>
      obtain ⟨above, habove⟩ := exists_levels h depth
      have hstored : (s.table.peek? (T.locate mount d)).isSome := Option.isSome_of_any hends
      rw [habove, FragmentStore.storeLevels_of_stored hends]
      exact ⟨(hs.of_stored hstored).congr FragmentStore.peek?_look,
        (congrArg Option.isSome (FragmentStore.peek?_look _)).trans hstored⟩
    | false =>
      have hstored : ((T.store mount s d).table.peek? (T.locate mount d)).isSome := by
        rw [FixedTree.store, FragmentStore.peek?_put_self]
        rfl
      cases h with
      | boundary hboundary =>
        simp only [List.take_succ_cons, List.take_nil, List.map_cons, List.map_nil] at hkept ⊢
        rw [storeLevels_boundary hd hboundary hends] at hkept ⊢
        exact ⟨hs.store hd hkept (Or.inl hboundary), hstored⟩
      | step hboundary habove =>
        simp only [List.take_succ_cons, List.map_cons] at hkept ⊢
        rw [storeLevels_step hd hboundary hends] at hkept ⊢
        have hstore : (T.store mount s d).table.evictions ≤ s.table.evictions :=
          FragmentStore.evictions_le_storeLevels.trans hkept
        have hrest : s.table.evictions ≤ (T.store mount s d).table.evictions := by
          rw [← visit_level hd]
          exact FragmentStore.evictions_le_visit
        have hnext := hs.store hd hstore (Or.inr rfl)
        exact ⟨(ih habove (T.parent_mem d hd hboundary) (hkept.trans hrest) hnext).1,
          FragmentStore.isSome_storeLevels (hkept.trans hrest) hstored⟩

/-! ### Following links -/

/-- A cut mark is stored in place of an entry, which is not itself without parent and name. -/
def Marked (T : FixedTree) (s : FragmentStore) (mount : MountId) (e : Handle) : Prop :=
  s.table.peek? (T.locate mount e) = some .detached ∧ (T.fragment mount e).isDetached = false

theorem isBoundary_of_isDetached (hd : d ∈ T.entries)
    (h : (T.fragment mount d).isDetached = true) : T.IsBoundary d := by
  have hparent : T.parentLocation mount d = .nowhere := Fragment.parent_of_isDetached h
  have hnowhere : (T.parentLocation mount d).isNowhere = true := Location.isNowhere_iff.2 hparent
  exact (isNowhere_parentLocation hd).1 hnowhere

/-- Where no entry of a chain is marked, following its links gives its names. -/
theorem follows_chain (hs : T.Linked s none) (h : T.Leads d chain) (hd : d ∈ T.entries)
    (hstored : (s.table.peek? (T.locate mount d)).isSome)
    (hwhole : ∀ e ∈ chain, ¬ T.Marked s mount e) :
    Follows s.table (T.locate mount d) (chain.map fun e => (T.fragment mount e).name) := by
  induction h with
  | @boundary d hboundary =>
    have hparent : (T.fragment mount d).parent = .nowhere := if_pos hboundary
    obtain ⟨f, hf⟩ := Option.isSome_iff_exists.1 hstored
    rcases hs mount d hd f hf with rfl | ⟨rfl, -⟩
    · have hdetached : (T.fragment mount d).isDetached = true := by
        by_contra hnot
        exact hwhole d (List.mem_singleton_self d) ⟨hf, eq_false_of_ne_true hnot⟩
      rw [List.map_singleton, (Fragment.isDetached_iff hparent).1 hdetached,
        ← Fragment.name_detached]
      exact .last hf rfl
    · exact .last hf hparent
  | @step d above hboundary habove ih =>
    have hmem := T.parent_mem d hd hboundary
    have hparent : (T.fragment mount d).parent = T.locate mount (T.parent d) := if_neg hboundary
    have hne : (T.fragment mount d).parent ≠ .nowhere := hparent ▸ locate_ne_nowhere hmem
    obtain ⟨f, hf⟩ := Option.isSome_iff_exists.1 hstored
    obtain ⟨hfirst, hrest⟩ := List.forall_mem_cons.1 hwhole
    rcases hs mount d hd f hf with rfl | ⟨rfl, hlinked⟩
    · refine absurd ⟨hf, eq_false_of_ne_true fun hdetached => ?_⟩ hfirst
      exact hboundary (isBoundary_of_isDetached hd hdetached)
    · have habove : (s.table.peek? (T.locate mount (T.parent d))).isSome :=
        (hlinked.resolve_left hboundary).resolve_right (by simp)
      exact .link hf hne (hparent ▸ ih hmem habove hrest)

theorem leads_cons_append {b : Handle} {below above : List Handle}
    (h : T.Leads d (b :: below ++ e :: above)) :
    d = b ∧ ¬ T.IsBoundary d ∧ T.Leads (T.parent d) (below ++ e :: above) := by
  generalize hlist : b :: below ++ e :: above = list at h
  cases h with
  | boundary _ => simp at hlist
  | step hboundary habove =>
    obtain ⟨rfl, rfl⟩ := List.cons.inj hlist
    exact ⟨rfl, hboundary, habove⟩

theorem isBoundary_last {below : List Handle} (h : T.Leads d (below ++ [e])) :
    T.IsBoundary e := by
  induction below generalizing d with
  | nil =>
    cases h with
    | boundary hboundary => exact hboundary
    | step _ habove => cases habove
  | cons b below ih => exact ih (leads_cons_append h).2.2

/-- Following the links of a chain ends at the first entry that is marked, with an empty name. -/
theorem follows_marked (hs : T.Linked s none) {below above : List Handle}
    (h : T.Leads d (below ++ e :: above)) (hd : d ∈ T.entries)
    (hstored : (s.table.peek? (T.locate mount d)).isSome)
    (hwhole : ∀ b ∈ below, ¬ T.Marked s mount b) (hmarked : T.Marked s mount e) :
    Follows s.table (T.locate mount d)
      ((below.map fun e => (T.fragment mount e).name) ++ [[]]) := by
  induction below generalizing d with
  | nil =>
    obtain rfl : d = e := by cases h <;> rfl
    rw [List.map_nil, List.nil_append, ← Fragment.name_detached]
    exact .last hmarked.1 rfl
  | cons b below ih =>
    obtain ⟨rfl, hboundary, habove⟩ := leads_cons_append h
    obtain ⟨hfirst, hrest⟩ := List.forall_mem_cons.1 hwhole
    have hmem := T.parent_mem d hd hboundary
    have hparent : (T.fragment mount d).parent = T.locate mount (T.parent d) := if_neg hboundary
    have hne : (T.fragment mount d).parent ≠ .nowhere := hparent ▸ locate_ne_nowhere hmem
    obtain ⟨f, hf⟩ := Option.isSome_iff_exists.1 hstored
    rcases hs mount d hd f hf with rfl | ⟨rfl, hlinked⟩
    · refine absurd ⟨hf, eq_false_of_ne_true fun hdetached => ?_⟩ hfirst
      exact hboundary (isBoundary_of_isDetached hd hdetached)
    · have hstored' : (s.table.peek? (T.locate mount (T.parent d))).isSome :=
        (hlinked.resolve_left hboundary).resolve_right (by simp)
      exact .link hf hne (hparent ▸ ih habove hmem hstored' hrest)

end FixedTree

/-- Links lead to one list of names only. -/
theorem Follows.unique {t : Table Location Fragment} {key : Location} {names names' : List Bytes}
    (h : Follows t key names) (h' : Follows t key names') : names = names' := by
  induction h generalizing names' with
  | last hf hnone =>
    cases h' with
    | last hf' _ => rw [Option.some.inj (hf.symm.trans hf')]
    | link hf' hne _ => exact absurd (Option.some.inj (hf.symm.trans hf') ▸ hnone) hne
  | link hf hne _ ih =>
    cases h' with
    | last hf' hnone => exact absurd (Option.some.inj (hf.symm.trans hf') ▸ hnone) hne
    | link hf' _ hrest =>
      obtain rfl := Option.some.inj (hf.symm.trans hf')
      rw [ih hrest]

end FsTrace
