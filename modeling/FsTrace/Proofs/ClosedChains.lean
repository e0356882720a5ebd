import FsTrace.Proofs.CutChains

/-!
# Chains that are closed

As long as nothing is evicted, every stored fragment without parent ends a chain, and every other
one has its parent stored. This holds whatever was read: entries that change, reads that fail,
parents that lead in a circle, walks that run out of depth.

* `FragmentStore.Lookup`, an entry that is looked up; `FragmentStore.Request`, to find it, or to
  drop what is stored of it first; `FragmentStore.after`: a store after some requests;
* `FragmentStore.Course`: what a walk that evicts nothing does, one write after another;
* `FragmentStore.Closed`: every parent is stored, but for one that a walk awaits. Every walk closes
  what it awaited (`Course.closed`), and a dropped fragment is awaited (`closed_forget`);
* `FragmentStore.closed_after`: the chains are closed after any requests that evict nothing, and a
  walk that runs out of depth leaves a fragment where it would have gone on.
-/

namespace FsTrace

namespace FragmentStore

/-! ### Requests -/

/-- An entry that is looked up, with the location under which it is stored. -/
structure Lookup where
  view : View
  entry : Handle
  leaf : Location

/-- The entries that are read on the way up. -/
def Lookup.levels (l : Lookup) : List Level := ascent l.view l.entry

/-- What is asked of a store. -/
inductive Request
  | resolve (l : Lookup)
  /-- What is stored of the entry is dropped first. -/
  | renew (l : Lookup) (h : l.leaf.hasNoInode = false)

/-- What is looked up. -/
def Request.lookup : Request → Lookup
  | .resolve l => l
  | .renew l _ => l

/-- A store looks an entry up. -/
def find (s : FragmentStore) (l : Lookup) : Bool × FragmentStore := s.resolve l.view l.entry l.leaf

/-- A store answers one request. -/
def perform (s : FragmentStore) : Request → Bool × FragmentStore
  | .resolve l => s.find l
  | .renew l _ => (s.forget l.leaf).find l

/-- A store after some requests. -/
def after (s : FragmentStore) (requests : List Request) : FragmentStore :=
  requests.foldl (fun s request => (s.perform request).2) s

variable {s s' : FragmentStore} {mount : MountId} {key k : Location} {f : Fragment}
  {levels : List Level} {awaited : Option Location} {l : Lookup} {ws : List (Location × Fragment)}

theorem after_append (requests requests' : List Request) :
    s.after (requests ++ requests') = (s.after requests).after requests' := List.foldl_append

theorem evictions_le_perform (request : Request) :
    s.table.evictions ≤ (s.perform request).2.table.evictions := by
  cases request with
  | resolve l => exact evictions_le_resolve
  | renew l hinode => exact evictions_forget.symm.trans_le evictions_le_resolve

theorem evictions_le_after (requests : List Request) :
    s.table.evictions ≤ (s.after requests).table.evictions := by
  induction requests generalizing s with
  | nil => exact le_rfl
  | cons request requests ih => exact (evictions_le_perform request).trans ih

/-! ### The course of a walk -/

/-- The course of a walk that evicts nothing, from a key on: what it writes, and the store after
it. -/
inductive Course : FragmentStore → Location → List (Location × Fragment) → FragmentStore → Prop
  /-- It ends where a fragment is stored. -/
  | stored {s s' : FragmentStore} {key : Location} :
    (s.table.peek? key).isSome → (∀ k, s'.table.peek? k = s.table.peek? k) → Course s key [] s'
  /-- It ends with a fragment that has no parent. -/
  | last {s : FragmentStore} {key : Location} {f : Fragment} :
    s.endsAt key = false → f.parent = .nowhere →
      ((s.look key).put key f).table.evictions ≤ s.table.evictions →
      Course s key [(key, f)] ((s.look key).put key f)
  /-- It goes on with the parent. -/
  | step {s s' : FragmentStore} {key : Location} {f : Fragment} {ws : List (Location × Fragment)} :
    s.endsAt key = false → f.parent ≠ .nowhere →
      ((s.look key).put key f).table.evictions ≤ s.table.evictions →
      Course ((s.look key).put key f) f.parent ws s' → Course s key ((key, f) :: ws) s'

theorem course_storeLevels
    (hkept : (storeLevels mount s key levels).2.table.evictions ≤ s.table.evictions) :
    Course s key (written mount s key levels) (storeLevels mount s key levels).2 := by
  induction levels generalizing s key with
  | nil =>
    rw [storeLevels, written] at *
    by_cases hstored : (s.table.peek? key).isSome
    · rw [markCut_of_stored hstored, if_pos hstored]
      exact .stored hstored fun k => peek?_look k
    · have hmissing := endsAt_of_absent (Option.not_isSome_iff_eq_none.1 hstored)
      simp only [markCut_of_absent hstored, if_neg hstored] at hkept ⊢
      exact .last hmissing rfl hkept
  | cons level above ih =>
    cases hends : s.endsAt key with
    | true =>
      rw [storeLevels_of_stored hends, written_of_stored hends]
      exact .stored (Option.isSome_of_any hends) fun k => peek?_look k
    | false =>
      rw [storeLevels_of_missing hends] at hkept ⊢
      rw [written_of_missing hends]
      by_cases hroot : (parentLocation mount level).isNowhere = true
      · simp only [if_pos hroot] at hkept ⊢
        exact .last hends (Location.isNowhere_iff.1 hroot) hkept
      · simp only [if_neg hroot] at hkept ⊢
        have hvisit : (s.visit mount key level).table.evictions ≤ s.table.evictions :=
          evictions_le_storeLevels.trans hkept
        exact .step hends (mt Location.isNowhere_iff.2 hroot) hvisit
          (ih (hkept.trans evictions_le_visit))

/-- What is stored afterwards is what was written last, or was there before. -/
theorem Course.peek?_eq (h : Course s key ws s') :
    s'.table.peek? k = leave k (s.table.peek? k) ws := by
  induction h with
  | stored _ hsame => exact hsame k
  | last _ _ hkept => exact peek?_look_put_of_kept hkept
  | step _ _ hkept _ ih => rw [ih, leave, peek?_look_put_of_kept hkept]

theorem Course.isSome (h : Course s key ws s') (hk : (s.table.peek? k).isSome) :
    (s'.table.peek? k).isSome := by
  rw [h.peek?_eq]
  exact isSome_leave hk

/-! ### Closed chains -/

/-- The parent of every stored fragment is nowhere, or stored as well, or awaited. -/
def Closed (s : FragmentStore) (awaited : Option Location) : Prop :=
  ∀ k f, s.table.peek? k = some f →
    f.parent = .nowhere ∨ (s.table.peek? f.parent).isSome ∨ awaited = some f.parent

theorem closed_new (capacity : Nat) : (new capacity).Closed none := by
  intro k f hf
  have hnone : (new capacity).table.peek? k = none := Table.peek?_new _ _
  rw [hnone] at hf
  cases hf

theorem Closed.congr (hs : s.Closed awaited)
    (h : ∀ k, s'.table.peek? k = s.table.peek? k) : s'.Closed awaited := by
  intro k f hf
  rw [h] at hf ⊢
  exact hs k f hf

theorem Closed.mono (hs : s.Closed none) : s.Closed awaited := by
  intro k f hf
  rcases hs k f hf with hnowhere | hstored | hawaited
  · exact Or.inl hnowhere
  · exact Or.inr (Or.inl hstored)
  · cases hawaited

/-- Nothing is awaited any more once it is stored. -/
theorem Closed.of_stored (hs : s.Closed (some key)) (hstored : (s.table.peek? key).isSome) :
    s.Closed none := by
  intro k f hf
  rcases hs k f hf with hnowhere | hparent | hawaited
  · exact Or.inl hnowhere
  · exact Or.inr (Or.inl hparent)
  · obtain rfl := Option.some.inj hawaited
    exact Or.inr (Or.inl hstored)

theorem isSome_look_put (hkept : ((s.look key).put key f).table.evictions ≤ s.table.evictions)
    (hk : key = k ∨ (s.table.peek? k).isSome) :
    (((s.look key).put key f).table.peek? k).isSome := by
  rw [peek?_look_put_of_kept hkept]
  split
  · rfl
  · next hne => exact hk.resolve_left hne

/-- A fragment that is stored where it was awaited makes its own parent awaited, if there is one. -/
theorem Closed.put (hs : s.Closed (some key))
    (hkept : ((s.look key).put key f).table.evictions ≤ s.table.evictions)
    (hparent : f.parent = .nowhere ∨ awaited = some f.parent) :
    ((s.look key).put key f).Closed awaited := by
  intro k g hg
  rw [peek?_look_put_of_kept hkept] at hg
  split at hg
  · obtain rfl := Option.some.inj hg
    exact hparent.imp_right Or.inr
  · rcases hs k g hg with hnowhere | hold | hawaited
    · exact Or.inl hnowhere
    · exact Or.inr (Or.inl (isSome_look_put hkept (Or.inr hold)))
    · exact Or.inr (Or.inl (isSome_look_put hkept (Or.inl (Option.some.inj hawaited))))

/-- A walk that evicts nothing stores what it was awaited under, and closes all chains. -/
theorem Course.closed (h : Course s key ws s') (hs : s.Closed (some key)) :
    s'.Closed none ∧ (s'.table.peek? key).isSome := by
  induction h with
  | stored hstored hsame => exact ⟨(hs.of_stored hstored).congr hsame, by rwa [hsame]⟩
  | last _ hnowhere hkept =>
    exact ⟨hs.put hkept (Or.inl hnowhere), isSome_look_put hkept (Or.inl rfl)⟩
  | step _ _ hkept habove ih =>
    exact ⟨(ih (hs.put hkept (Or.inr rfl))).1, habove.isSome (isSome_look_put hkept (Or.inl rfl))⟩

/-- A dropped fragment is awaited. -/
theorem closed_forget (hs : s.Closed none) (leaf : Location) :
    (s.forget leaf).Closed (some leaf) := by
  intro k f hf
  rw [peek?_forget] at hf
  split at hf
  · cases hf
  · rcases hs k f hf with hnowhere | hstored | hawaited
    · exact Or.inl hnowhere
    · rw [peek?_forget]
      split
      · next hleaf => exact Or.inr (Or.inr (congrArg some hleaf))
      · exact Or.inr (Or.inl hstored)
    · cases hawaited

theorem closed_find (hs : s.Closed (some l.leaf)) (hinode : l.leaf.hasNoInode = false)
    (hkept : (s.find l).2.table.evictions ≤ s.table.evictions) :
    (s.find l).2.Closed none ∧ ((s.find l).2.table.peek? l.leaf).isSome := by
  rw [find, resolve, if_neg (by simp [hinode])] at hkept ⊢
  exact (course_storeLevels hkept).closed hs

/-- Every request that evicts nothing keeps the chains closed. -/
theorem closed_perform (hs : s.Closed none) (request : Request)
    (hkept : (s.perform request).2.table.evictions ≤ s.table.evictions) :
    (s.perform request).2.Closed none := by
  cases request with
  | resolve l =>
    cases hinode : l.leaf.hasNoInode with
    | true =>
      rw [perform, find, resolve, if_pos hinode]
      exact hs
    | false => exact (closed_find hs.mono hinode hkept).1
  | renew l hinode =>
    exact (closed_find (closed_forget hs l.leaf) hinode (hkept.trans_eq evictions_forget.symm)).1

/-! ### Walks that run out of depth -/

/-- Where a walk goes on after some entries. -/
def goesOn (mount : MountId) (key : Location) : List Level → Location
  | [] => key
  | level :: above => goesOn mount (parentLocation mount level) above

theorem goesOn_concat (below : List Level) (last : Level) :
    goesOn mount key (below ++ [last]) = parentLocation mount last := by
  induction below generalizing key with
  | nil => rfl
  | cons level below ih => exact ih

/-- A walk that runs out of depth visited no boundary, and leaves a fragment where it would have
gone on. -/
theorem isSome_goesOn (htruncated : (storeLevels mount s key levels).1 = true)
    (hs : s.Closed (some key))
    (hkept : (storeLevels mount s key levels).2.table.evictions ≤ s.table.evictions) :
    (∀ level ∈ levels, level.isBoundary = false) ∧
      ((storeLevels mount s key levels).2.table.peek? (goesOn mount key levels)).isSome := by
  induction levels generalizing s key with
  | nil =>
    exact ⟨fun _ hnone => absurd hnone List.not_mem_nil, ((course_storeLevels hkept).closed hs).2⟩
  | cons level above ih =>
    cases hends : s.endsAt key with
    | true => simp [storeLevels_of_stored hends] at htruncated
    | false =>
      rw [storeLevels_of_missing hends] at htruncated hkept ⊢
      by_cases hroot : (parentLocation mount level).isNowhere = true
      · simp [if_pos hroot] at htruncated
      · rw [if_neg hroot] at htruncated hkept ⊢
        have hvisit : (s.visit mount key level).table.evictions ≤ s.table.evictions :=
          evictions_le_storeLevels.trans hkept
        have habove : _ ≤ (s.visit mount key level).table.evictions :=
          hkept.trans evictions_le_visit
        have hinner : level.isBoundary = false := by
          by_contra hboundary
          exact hroot (by simp [parentLocation, hboundary])
        obtain ⟨hlevels, hstored⟩ := ih htruncated (hs.put hvisit (Or.inr rfl)) habove
        exact ⟨List.forall_mem_cons.2 ⟨hinner, hlevels⟩, hstored⟩

/-- An ascent without a boundary is as long as the depth allows. -/
theorem length_climb_of_inner {view : View} {d : Handle} {buffer : NameBuffer} {depth : Nat}
    (h : ∀ level ∈ climb view d buffer depth, level.isBoundary = false) :
    (climb view d buffer depth).length = depth := by
  induction depth generalizing view d buffer with
  | zero => rfl
  | succ depth ih =>
    simp only [climb] at h ⊢
    split at h
    · next hboundary =>
      rw [h _ List.mem_cons_self] at hboundary
      cases hboundary
    · next hinner =>
      rw [if_neg hinner, List.length_cons, ih (List.forall_mem_cons.1 h).2]

theorem isSome_above (hs : s.Closed (some l.leaf))
    (hkept : (s.find l).2.table.evictions ≤ s.table.evictions)
    (htruncated : (s.find l).1 = true) :
    ∃ below last, l.levels = below ++ [last] ∧ l.levels.length = maxPathDepth ∧
      ((s.find l).2.table.peek? ⟨last.parentInode, l.leaf.mount⟩).isSome := by
  unfold find resolve at hkept htruncated ⊢
  split at htruncated
  · cases htruncated
  · next hinode =>
    rw [if_neg hinode] at hkept ⊢
    obtain ⟨hinner, hstored⟩ := isSome_goesOn htruncated hs hkept
    have hlength : l.levels.length = maxPathDepth := length_climb_of_inner hinner
    rcases List.eq_nil_or_concat l.levels with hnil | ⟨below, last, hlast⟩
    · rw [hnil] at hlength
      cases hlength
    · rw [List.concat_eq_append] at hlast
      have hmem : last ∈ l.levels := hlast ▸ List.mem_append_right _ List.mem_cons_self
      have hboundary : last.isBoundary = false := hinner last hmem
      have habove : goesOn l.leaf.mount l.leaf l.levels = ⟨last.parentInode, l.leaf.mount⟩ := by
        rw [hlast, goesOn_concat, parentLocation, hboundary]
        rfl
      exact ⟨below, last, hlast, hlength, habove ▸ hstored⟩

/-- A request whose walk runs out of depth leaves a fragment under the location above the last
entry that it read. -/
theorem isSome_above_perform (hs : s.Closed none) (request : Request)
    (hkept : (s.perform request).2.table.evictions ≤ s.table.evictions)
    (htruncated : (s.perform request).1 = true) :
    ∃ below last, request.lookup.levels = below ++ [last] ∧
      request.lookup.levels.length = maxPathDepth ∧
      ((s.perform request).2.table.peek?
        ⟨last.parentInode, request.lookup.leaf.mount⟩).isSome := by
  cases request with
  | resolve l => exact isSome_above hs.mono hkept htruncated
  | renew l hinode =>
    exact isSome_above (closed_forget hs l.leaf) (hkept.trans_eq evictions_forget.symm) htruncated

/-! ### Runs -/

theorem closed_after_of_closed (hs : s.Closed none) (requests : List Request)
    (hkept : (s.after requests).table.evictions ≤ s.table.evictions) :
    (s.after requests).Closed none := by
  induction requests generalizing s with
  | nil => exact hs
  | cons request requests ih =>
    have hfirst : (s.perform request).2.table.evictions ≤ s.table.evictions :=
      (evictions_le_after requests).trans hkept
    exact ih (closed_perform hs request hfirst) (hkept.trans (evictions_le_perform request))

/-- **No chain dangles.** After any requests that evict nothing, the parent of every stored fragment
is nowhere or stored as well, whatever was read on the way. A walk that ran out of depth left a
fragment under the location at which it would have gone on. -/
theorem closed_after (capacity : Nat) (requests : List Request)
    (hkept : ((new capacity).after requests).table.evictions = 0) :
    (∀ k f, ((new capacity).after requests).table.peek? k = some f →
      f.parent = .nowhere ∨ (((new capacity).after requests).table.peek? f.parent).isSome) ∧
    ∀ before request rest, requests = before ++ request :: rest →
      (((new capacity).after before).perform request).1 = true →
        ∃ below last, request.lookup.levels = below ++ [last] ∧
          request.lookup.levels.length = maxPathDepth ∧
          ((((new capacity).after before).perform request).2.table.peek?
            ⟨last.parentInode, request.lookup.leaf.mount⟩).isSome := by
  constructor
  · intro k f hf
    exact (closed_after_of_closed (closed_new capacity) requests hkept.le k f hf).imp_right
      fun h => h.resolve_right nofun
  · rintro before request rest rfl htruncated
    rw [after_append] at hkept
    have hrest : (((new capacity).after before).perform request).2.table.evictions ≤ 0 :=
      (evictions_le_after rest).trans hkept.le
    have hbefore : ((new capacity).after before).table.evictions ≤ 0 :=
      (evictions_le_perform request).trans hrest
    exact isSome_above_perform (closed_after_of_closed (closed_new capacity) before hbefore) request
      (hrest.trans (Nat.zero_le _)) htruncated

/-! ### Room for all walks -/

theorem exists_writes_find (s : FragmentStore) (l : Lookup) :
    ∃ ps, ps.length ≤ maxPathDepth + 1 ∧ Writes s ps (s.find l).2 := by
  unfold find resolve
  split
  · exact ⟨[], Nat.zero_le _, .done⟩
  · exact ⟨_, (length_puts_le _).trans (Nat.succ_le_succ (length_ascent_le l.view l.entry)),
      writes_storeLevels _⟩

/-- With room for all fragments that its walk may write, a request evicts nothing. -/
theorem Unswept.perform (hs : s.Unswept) (request : Request)
    (hroom : s.inserted + (maxPathDepth + 1) ≤ s.table.capacity) :
    (s.perform request).2.Unswept ∧
      (s.perform request).2.inserted ≤ s.inserted + (maxPathDepth + 1) ∧
      (s.perform request).2.table.capacity = s.table.capacity := by
  cases request with
  | resolve l =>
    obtain ⟨ps, hlength, hwrites⟩ := exists_writes_find s l
    refine ⟨hwrites.unswept hs (by omega), ?_, hwrites.capacity_eq⟩
    rw [FragmentStore.perform, hwrites.inserted_eq]
    omega
  | renew l hinode =>
    obtain ⟨ps, hlength, hwrites⟩ := exists_writes_find (s.forget l.leaf) l
    have hcapacity : (s.forget l.leaf).table.capacity = s.table.capacity := capacity_forget
    have hinserted : (s.forget l.leaf).inserted = s.inserted := rfl
    refine ⟨hwrites.unswept hs.forget (by omega), ?_, hwrites.capacity_eq.trans hcapacity⟩
    rw [FragmentStore.perform, hwrites.inserted_eq]
    omega

theorem Unswept.after (hs : s.Unswept) (requests : List Request)
    (hroom : s.inserted + (maxPathDepth + 1) * requests.length ≤ s.table.capacity) :
    (s.after requests).Unswept := by
  induction requests generalizing s with
  | nil => exact hs
  | cons request requests ih =>
    rw [List.length_cons, Nat.mul_succ] at hroom
    obtain ⟨hunswept, hinserted, hcapacity⟩ := hs.perform request (by omega)
    refine ih hunswept ?_
    show (s.perform request).2.inserted + _ ≤ (s.perform request).2.table.capacity
    omega

/-- With room for all fragments that its walks may write, a run evicts nothing. -/
theorem evictions_after_eq_zero {capacity : Nat} {requests : List Request}
    (hroom : (maxPathDepth + 1) * requests.length ≤ max capacity 1) :
    ((new capacity).after requests).table.evictions = 0 :=
  ((unswept_new capacity).after requests ((Nat.zero_add _).trans_le hroom)).evictions_eq

/-- The last of 77 entries. -/
def deep : Lookup := ⟨.still FixedTree.ladder.accessor, ⟨76⟩, ⟨77, 1⟩⟩

/-- A walk from there runs out of depth below the entry with inode `2`. No chain dangles, also when
the entry is stored anew. -/
theorem closed_after_deep :
    (∀ k f, ((new 152).after [.resolve deep, .renew deep rfl]).table.peek? k = some f →
      f.parent = .nowhere ∨
        (((new 152).after [.resolve deep, .renew deep rfl]).table.peek? f.parent).isSome) ∧
    (((new 152).find deep).2.table.peek? ⟨2, 1⟩).isSome := by
  obtain ⟨hclosed, hcut⟩ :=
    closed_after 152 [.resolve deep, .renew deep rfl] (evictions_after_eq_zero (by decide))
  refine ⟨hclosed, ?_⟩
  have htruncated : ((new 152).find deep).1 = true := by
    have hmark : (FixedTree.ladder.locate 1 ⟨1⟩, .detached) ∈
        FixedTree.ladder.written (.new 152) [⟨1, ⟨76⟩⟩] := by
      rw [FixedTree.written_deep]
      exact List.mem_append_right _ List.mem_cons_self
    obtain ⟨before, leaf, rest, hsplit, -, -, hwalk⟩ :=
      FixedTree.exists_truncated_of_mem (fun _ _ => Set.mem_univ _)
        (FixedTree.fragment_ladder 1 ⟨1⟩).1 (Set.mem_univ _) hmark
    cases before with
    | nil =>
      obtain ⟨rfl, -⟩ := List.cons.inj hsplit
      exact hwalk
    | cons first before => simp at hsplit
  have hlevels : deep.levels =
      ((FixedTree.rungs 76).take 74).map FixedTree.ladder.level ++ [FixedTree.ladder.level ⟨2⟩] :=
    FixedTree.ascent_eq (FixedTree.leads_rungs 76) (Set.mem_univ _)
  obtain ⟨below, last, hlast, -, hstored⟩ := hcut [] _ _ rfl htruncated
  obtain ⟨-, hsame⟩ := List.append_inj' (hlast.symm.trans hlevels) rfl
  obtain rfl := List.singleton_inj.1 hsame
  exact hstored

end FragmentStore

end FsTrace
