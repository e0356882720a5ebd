import FsTrace.Proofs.ClosedChains
import Mathlib.Order.WellFoundedSet

/-!
# Chains that come back

A walk ends at the first stored entry that it meets. Where the parents that it reads lead in a
circle, it meets an entry that it stored itself, and the links that it leaves never end. They do not
either where the chain that it meets ended at a mark that the same walk replaced.

* `FragmentStore.Links`: a stored fragment and its parent; `FragmentStore.Passes`: what is passed
  on the way along the links, and where they end. They end unless they come back (`exists_passes`);
* `FragmentStore.Rests`: what the last fragment of a walk has to be for the links to end, and
  `Course.loopless_iff`: the walk closes no loop just when no link that was stored before leads
  from where it ended to what it wrote;
* `FragmentStore.stops_iff_rests`: all chains stop, at a root or at a detached fragment, just when
  every walk came to rest.
-/

namespace FsTrace

/-! ### Relations with one more edge -/

section Edge

variable {α : Type} {r r' : α → α → Prop} {x y a b : α}

open Relation

/-- A new edge adds only the ways that go along it: from what led to its start, to what its end led
to. -/
theorem transGen_or_of_edge (hedge : ∀ a b, r' a b → r a b ∨ a = x ∧ b = y)
    (h : TransGen r' a b) : TransGen r a b ∨ ReflTransGen r a x ∧ ReflTransGen r y b := by
  induction h with
  | single hab =>
    rcases hedge _ _ hab with hab | ⟨rfl, rfl⟩
    · exact Or.inl (.single hab)
    · exact Or.inr ⟨.refl, .refl⟩
  | tail _ hbc ih =>
    rcases hedge _ _ hbc with hbc | ⟨rfl, rfl⟩
    · exact ih.imp (fun hab => hab.tail hbc) fun ⟨hax, hyb⟩ => ⟨hax, hyb.tail hbc⟩
    · exact Or.inr ⟨ih.elim TransGen.to_reflTransGen And.left, .refl⟩

theorem reflTransGen_or_of_edge (hedge : ∀ a b, r' a b → r a b ∨ a = x ∧ b = y)
    (h : ReflTransGen r' a b) : ReflTransGen r a b ∨ ReflTransGen r a x := by
  rcases reflTransGen_iff_eq_or_transGen.1 h with rfl | h
  · exact Or.inl .refl
  · exact (transGen_or_of_edge hedge h).imp TransGen.to_reflTransGen And.left

end Edge

namespace FragmentStore

open Relation

variable {s s' : FragmentStore} {mount : MountId} {key k next : Location} {f last : Fragment}
  {keys : List Location} {ws : List (Location × Fragment)} {l : Lookup}

/-! ### Links -/

/-- The fragment that is stored under `key` has its parent under `next`. -/
def Links (s : FragmentStore) (key next : Location) : Prop :=
  ∃ f, s.table.peek? key = some f ∧ f.parent = next ∧ next ≠ .nowhere

/-- The links never come back. -/
def Loopless (s : FragmentStore) : Prop := ∀ key, ¬ TransGen s.Links key key

/-- Following the links from a key passes these keys and ends at a fragment without parent. -/
inductive Passes (s : FragmentStore) : Location → List Location → Fragment → Prop
  | last {key : Location} {f : Fragment} :
    s.table.peek? key = some f → f.parent = .nowhere → Passes s key [key] f
  | link {key : Location} {f last : Fragment} {keys : List Location} :
    s.table.peek? key = some f → f.parent ≠ .nowhere → Passes s f.parent keys last →
      Passes s key (key :: keys) last

theorem Links.unique {next' : Location} (h : s.Links key next) (h' : s.Links key next') :
    next = next' := by
  obtain ⟨f, hf, rfl, -⟩ := h
  obtain ⟨f', hf', rfl, -⟩ := h'
  rw [Option.some.inj (hf.symm.trans hf')]

theorem Links.isSome (h : s.Links key next) : (s.table.peek? key).isSome := by
  obtain ⟨f, hf, -⟩ := h
  exact hf ▸ rfl

theorem links_congr (h : ∀ k, s'.table.peek? k = s.table.peek? k) : s'.Links = s.Links := by
  funext key next
  simp only [Links, h]

theorem loopless_congr (h : ∀ k, s'.table.peek? k = s.table.peek? k) :
    s'.Loopless ↔ s.Loopless := by
  rw [Loopless, Loopless, links_congr h]

/-- A walk goes on only where no link leads on. -/
theorem not_links_of_missing (h : s.endsAt key = false) : ¬ s.Links key next := by
  rintro ⟨f, hf, rfl, hparent⟩
  rw [endsAt, hf, Option.any_some, Bool.not_eq_eq_eq_not, Bool.not_false] at h
  exact hparent (Fragment.parent_of_isDetached h)

/-- Links that end do not come back. -/
theorem Passes.not_loop (h : s.Passes key keys last) : ¬ TransGen s.Links key key := by
  induction h with
  | last hf hnowhere =>
    intro hloop
    obtain ⟨next, ⟨f', hf', rfl, hparent⟩, -⟩ := TransGen.head'_iff.1 hloop
    rw [Option.some.inj (hf.symm.trans hf')] at hnowhere
    exact hparent hnowhere
  | link hf hparent _ ih =>
    intro hloop
    obtain ⟨next, hlink, hback⟩ := TransGen.head'_iff.1 hloop
    obtain rfl := hlink.unique ⟨_, hf, rfl, hparent⟩
    exact ih (.tail' hback hlink)

theorem Passes.reaches (h : s.Passes key keys last) (hk : k ∈ keys) :
    ReflTransGen s.Links key k := by
  induction h with
  | last _ _ => exact List.mem_singleton.1 hk ▸ .refl
  | link hf hparent _ ih =>
    rcases List.mem_cons.1 hk with rfl | hk
    · exact .refl
    · exact .head ⟨_, hf, rfl, hparent⟩ (ih hk)

/-- No key is passed twice. -/
theorem Passes.nodup (h : s.Passes key keys last) : keys.Nodup := by
  induction h with
  | last _ _ => exact List.nodup_singleton _
  | @link key f last keys hf hparent habove ih =>
    refine List.nodup_cons.2 ⟨fun hmem => ?_, ih⟩
    have hlink : s.Links key f.parent := ⟨f, hf, rfl, hparent⟩
    exact (Passes.link hf hparent habove).not_loop (.head' hlink (habove.reaches hmem))

theorem Passes.exists_last (h : s.Passes key keys last) :
    ∃ k, s.table.peek? k = some last ∧ last.parent = .nowhere := by
  induction h with
  | last hf hnowhere => exact ⟨_, hf, hnowhere⟩
  | link _ _ _ ih => exact ih

theorem finite_stored (s : FragmentStore) : {key | (s.table.peek? key).isSome}.Finite := by
  refine s.table.entries.keys.finite_toSet.subset fun key hkey => ?_
  rw [Set.mem_ofPred_eq, Table.peek?, Option.isSome_map] at hkey
  exact Std.HashMap.mem_keys.2 (Std.HashMap.mem_iff_isSome_getElem?.2 hkey)

/-- Links that are closed and never come back end. -/
theorem exists_passes (hs : s.Closed none) (hloopless : s.Loopless)
    (hkey : (s.table.peek? key).isSome) : ∃ keys last, s.Passes key keys last := by
  -- only finitely many keys can be passed
  have : IsStrictOrder Location fun a b => TransGen s.Links b a :=
    { irrefl := hloopless
      trans := fun _ _ _ hab hbc => hbc.trans hab }
  have hfinite : {key | (s.table.peek? key).isSome}.WellFoundedOn fun a b => TransGen s.Links b a :=
    s.finite_stored.wellFoundedOn
  refine hfinite.induction (P := fun key => ∃ keys last, s.Passes key keys last) hkey
    fun key hkey ih => ?_
  obtain ⟨f, hf⟩ := Option.isSome_iff_exists.1 hkey
  rcases hs key f hf with hnowhere | hparent | hawaited
  · exact ⟨_, _, .last hf hnowhere⟩
  · by_cases hnowhere : f.parent = .nowhere
    · exact ⟨_, _, .last hf hnowhere⟩
    · obtain ⟨keys, last, habove⟩ := ih f.parent hparent (.single ⟨f, hf, rfl, hnowhere⟩)
      exact ⟨_, _, .link hf hnowhere habove⟩
  · cases hawaited

/-! ### What a walk keeps -/

theorem peek?_look_put_of_named {g : Fragment} (hf : s.table.peek? k = some f)
    (hnamed : f.isDetached = false) (hmissing : s.endsAt key = false)
    (hkept : ((s.look key).put key g).table.evictions ≤ s.table.evictions) :
    ((s.look key).put key g).table.peek? k = some f := by
  have hne : key ≠ k := by
    rintro rfl
    simp [endsAt, hf, hnamed] at hmissing
  rw [peek?_look_put_of_kept hkept, if_neg hne, hf]

/-- A walk that evicts nothing replaces detached fragments only. -/
theorem Course.peek?_of_named (h : Course s key ws s') (hf : s.table.peek? k = some f)
    (hnamed : f.isDetached = false) : s'.table.peek? k = some f := by
  induction h with
  | stored _ hsame => rw [hsame, hf]
  | last hmissing _ hkept => exact peek?_look_put_of_named hf hnamed hmissing hkept
  | step hmissing _ hkept _ ih => exact ih (peek?_look_put_of_named hf hnamed hmissing hkept)

theorem Course.links_le (h : Course s key ws s') : s.Links ≤ s'.Links := by
  rintro k next ⟨f, hf, rfl, hparent⟩
  have hnamed : f.isDetached = false :=
    eq_false_of_ne_true fun hdetached => hparent (Fragment.parent_of_isDetached hdetached)
  exact ⟨f, h.peek?_of_named hf hnamed, rfl, hparent⟩

/-! ### What a walk adds -/

section Put

variable (hmissing : s.endsAt key = false)
  (hkept : ((s.look key).put key f).table.evictions ≤ s.table.evictions)

include hmissing hkept

/-- A fragment that is stored where no link led on adds one link, if it has a parent. -/
theorem links_look_put_iff :
    ((s.look key).put key f).Links k next ↔
      s.Links k next ∨ f.parent ≠ .nowhere ∧ k = key ∧ next = f.parent := by
  by_cases hk : key = k
  · subst hk
    rw [Links, peek?_look_put_of_kept hkept, if_pos rfl,
      or_iff_right (not_links_of_missing hmissing)]
    constructor
    · rintro ⟨f', hf', rfl, hparent⟩
      obtain rfl := Option.some.inj hf'
      exact ⟨hparent, rfl, rfl⟩
    · rintro ⟨hparent, -, rfl⟩
      exact ⟨f, rfl, rfl, hparent⟩
  · rw [Links, peek?_look_put_of_kept hkept, if_neg hk]
    exact (or_iff_left fun hnew => hk hnew.2.1.symm).symm

theorem links_look_put_of_nowhere (hf : f.parent = .nowhere) :
    ((s.look key).put key f).Links = s.Links := by
  funext k next
  rw [links_look_put_iff hmissing hkept]
  exact propext (or_iff_left fun hnew => hnew.1 hf)

variable (hparent : f.parent ≠ .nowhere)

include hparent

theorem links_look_put_of_parent (k next : Location) :
    ((s.look key).put key f).Links k next ↔ s.Links k next ∨ k = key ∧ next = f.parent := by
  rw [links_look_put_iff hmissing hkept, and_iff_right hparent]

/-- One step of a walk closes a loop just when the links led from the parent to its child. -/
theorem loopless_look_put_iff (hs : s.Loopless) :
    ((s.look key).put key f).Loopless ↔ ¬ ReflTransGen s.Links f.parent key := by
  have hlinks := links_look_put_of_parent hmissing hkept hparent
  constructor
  · intro hloopless hback
    have hlink := (hlinks _ _).2 (Or.inr ⟨rfl, rfl⟩)
    have hold : s.Links ≤ ((s.look key).put key f).Links :=
      fun _ _ hab => (hlinks _ _).2 (Or.inl hab)
    exact hloopless key (.head' hlink (ReflTransGen.mono hold _ _ hback))
  · intro hback k hloop
    obtain ⟨hkey, hparentk⟩ :=
      (transGen_or_of_edge (fun a b => (hlinks a b).1) hloop).resolve_left (hs k)
    exact hback (hparentk.trans hkey)

/-- Where a walk goes on, nothing led back to the entry that it comes from. -/
theorem not_back_of_missing (habove : ((s.look key).put key f).endsAt f.parent = false) :
    ¬ ReflTransGen s.Links f.parent key := by
  intro hback
  have hlinks := links_look_put_of_parent hmissing hkept hparent
  rcases hback.cases_head with hsame | ⟨next, hlink, -⟩
  · exact not_links_of_missing habove ((hlinks _ _).2 (Or.inr ⟨hsame, rfl⟩))
  · exact not_links_of_missing habove ((hlinks _ _).2 (Or.inl hlink))

/-- What leads to a key that is written from this step on, led before to one of them or to the entry
itself. -/
theorem not_leads_look_put_iff {g g' : Fragment} {p : Location} (hws : (f.parent, g) ∈ ws) :
    (∀ w ∈ ws, ¬ ReflTransGen ((s.look key).put key f).Links p w.1) ↔
      ∀ w ∈ (key, g') :: ws, ¬ ReflTransGen s.Links p w.1 := by
  have hlinks := links_look_put_of_parent hmissing hkept hparent
  rw [List.forall_mem_cons]
  constructor
  · intro hrests
    have hold : ReflTransGen s.Links ≤ ReflTransGen ((s.look key).put key f).Links :=
      ReflTransGen.mono fun _ _ hab => (hlinks _ _).2 (Or.inl hab)
    -- from the entry's own key, the links go on to the next
    exact ⟨fun hto => hrests _ hws ((hold _ _ hto).tail ((hlinks _ _).2 (Or.inr ⟨rfl, rfl⟩))),
      fun w hw hto => hrests w hw (hold _ _ hto)⟩
  · rintro ⟨hself, hrests⟩ w hw hto
    rcases reflTransGen_or_of_edge (fun a b => (hlinks a b).1) hto with hto | hto
    · exact hrests w hw hto
    · exact hself hto

end Put

/-- A walk writes nothing, or goes on from its key and writes there first. -/
theorem Course.eq_nil_or (h : Course s key ws s') :
    (ws = [] ∧ ∀ k, s'.table.peek? k = s.table.peek? k) ∨
      s.endsAt key = false ∧ ∃ g rest, ws = (key, g) :: rest := by
  cases h with
  | stored _ hsame => exact Or.inl ⟨rfl, hsame⟩
  | last hmissing _ _ => exact Or.inr ⟨hmissing, _, _, rfl⟩
  | step hmissing _ _ _ => exact Or.inr ⟨hmissing, _, _, rfl⟩

/-- **When a walk closes a loop.** A walk that evicts nothing leaves no loop just when its last
fragment has no parent, or the links that were stored before lead from that parent to nothing that
the walk wrote. -/
theorem Course.loopless_iff (h : Course s key ws s') (hs : s.Loopless) :
    s'.Loopless ↔ ∀ w, ws.getLast? = some w → w.2.parent ≠ .nowhere →
      ∀ w' ∈ ws, ¬ ReflTransGen s.Links w.2.parent w'.1 := by
  induction h with
  | stored _ hsame => exact iff_of_true ((loopless_congr hsame).2 hs) (by simp)
  | last hmissing hnowhere hkept =>
    rw [Loopless, links_look_put_of_nowhere hmissing hkept hnowhere]
    refine iff_of_true hs fun w hw hparent => absurd ?_ hparent
    exact Option.some.inj hw ▸ hnowhere
  | @step s s' key f ws hmissing hparent hkept habove ih =>
    have hloopless := loopless_look_put_iff hmissing hkept hparent hs
    rcases habove.eq_nil_or with ⟨rfl, hsame⟩ | ⟨hgoes, g, rest, rfl⟩
    · -- the walk ends here, at a stored entry
      rw [loopless_congr hsame, hloopless]
      simp [hparent]
    · have hback := not_back_of_missing hmissing hkept hparent hgoes
      rw [ih (hloopless.2 hback), List.getLast?_cons_cons]
      exact forall₃_congr fun w _ _ =>
        not_leads_look_put_iff hmissing hkept hparent List.mem_cons_self

/-! ### Where chains end -/

/-- Every stored fragment without parent is a root or detached. -/
def Grounded (s : FragmentStore) : Prop :=
  ∀ k f, s.table.peek? k = some f → f.parent = .nowhere → f.isRoot = true ∨ f.isDetached = true

/-- A walk ends with the first fragment without parent that it writes. -/
theorem Course.getLast?_eq (h : Course s key ws s') {w : Location × Fragment} (hmem : w ∈ ws)
    (hw : w.2.parent = .nowhere) : ws.getLast? = some w := by
  induction h with
  | stored _ _ => cases hmem
  | last _ _ _ => rw [List.mem_singleton.1 hmem, List.getLast?_singleton]
  | step _ hparent _ _ ih =>
    rcases List.mem_cons.1 hmem with rfl | hmem
    · exact absurd hw hparent
    · rw [List.getLast?_cons_of_ne_nil (List.ne_nil_of_mem hmem), ih hmem]

theorem Course.grounded_iff (h : Course s key ws s') (hs : s.Grounded) :
    s'.Grounded ↔ ∀ w, ws.getLast? = some w → w.2.parent = .nowhere →
      w.2.isRoot = true ∨ w.2.isDetached = true := by
  constructor
  · rintro hgrounded ⟨k, f⟩ hlast hf
    obtain ⟨before, rfl⟩ := List.getLast?_eq_some_iff.1 hlast
    refine hgrounded k f ?_ hf
    rw [h.peek?_eq, leave_eq_some_iff]
    exact Or.inl ⟨before, [], rfl, fun _ hnone => absurd hnone List.not_mem_nil⟩
  · intro hrests k f hk hf
    rw [h.peek?_eq, leave_eq_some_iff] at hk
    rcases hk with ⟨before, after, rfl, -⟩ | ⟨hold, -⟩
    · have hmem : (k, f) ∈ before ++ (k, f) :: after := by simp
      exact hrests _ (h.getLast?_eq hmem hf) hf
    · exact hs k f hold hf

/-! ### Chains that stop -/

/-- The fragments that the walk from an entry writes, in order, each with its key. -/
def Lookup.writes (l : Lookup) (s : FragmentStore) : List (Location × Fragment) :=
  if l.leaf.hasNoInode then [] else written l.leaf.mount s l.leaf l.levels

/-- An entry without inode changes nothing, and any other one is walked from. -/
theorem find_cases (hkept : (s.find l).2.table.evictions ≤ s.table.evictions) :
    ((s.find l).2 = s ∧ l.writes s = []) ∨ Course s l.leaf (l.writes s) (s.find l).2 := by
  unfold find resolve at hkept ⊢
  unfold Lookup.writes
  split
  · exact Or.inl ⟨rfl, rfl⟩
  · next hinode => exact Or.inr (course_storeLevels (by rwa [if_neg hinode] at hkept))

theorem peek?_find (hkept : (s.find l).2.table.evictions ≤ s.table.evictions) :
    (s.find l).2.table.peek? k = leave k (s.table.peek? k) (l.writes s) := by
  rcases find_cases hkept with ⟨hsame, hnothing⟩ | hcourse
  · rw [hsame, hnothing, leave]
  · exact hcourse.peek?_eq

/-- Following the links from any stored key comes back to no key, and ends at a root or at a
detached fragment. -/
def Stops (s : FragmentStore) : Prop :=
  ∀ key, (s.table.peek? key).isSome → ∃ keys last, s.Passes key keys last ∧ keys.Nodup ∧
    (last.isRoot = true ∨ last.isDetached = true)

/-- The walk from an entry comes to rest. If its last fragment has no parent, it is a root or
detached. Otherwise the walk ended at a stored entry, from which the links that were stored before
lead to nothing that the walk wrote. -/
def Rests (s : FragmentStore) (l : Lookup) : Prop :=
  ∀ w, (l.writes s).getLast? = some w →
    (w.2.parent = .nowhere → w.2.isRoot = true ∨ w.2.isDetached = true) ∧
    (w.2.parent ≠ .nowhere → ∀ w' ∈ l.writes s, ¬ ReflTransGen s.Links w.2.parent w'.1)

/-- No links come back, and all end at a root or at a detached fragment. -/
structure Straight (s : FragmentStore) : Prop where
  loopless : s.Loopless
  grounded : s.Grounded

theorem stops_iff_straight (hs : s.Closed none) : s.Stops ↔ s.Straight := by
  constructor
  · intro hstops
    refine ⟨fun key hloop => ?_, fun key f hf hnowhere => ?_⟩
    · obtain ⟨next, hlink, -⟩ := TransGen.head'_iff.1 hloop
      obtain ⟨keys, last, hpasses, -⟩ := hstops key hlink.isSome
      exact hpasses.not_loop hloop
    · obtain ⟨keys, last, hpasses, -, hlast⟩ := hstops key (hf ▸ rfl)
      cases hpasses with
      | last hf' _ => exact Option.some.inj (hf'.symm.trans hf) ▸ hlast
      | link hf' hparent _ =>
        rw [Option.some.inj (hf'.symm.trans hf)] at hparent
        exact absurd hnowhere hparent
  · rintro ⟨hloopless, hgrounded⟩ key hkey
    obtain ⟨keys, last, hpasses⟩ := exists_passes hs hloopless hkey
    obtain ⟨k, hk, hnowhere⟩ := hpasses.exists_last
    exact ⟨keys, last, hpasses, hpasses.nodup, hgrounded k last hk hnowhere⟩

/-- A walk does not straighten what was not straight before. -/
theorem Straight.of_find (h : (s.find l).2.Straight)
    (hkept : (s.find l).2.table.evictions ≤ s.table.evictions) : s.Straight := by
  rcases find_cases hkept with ⟨hsame, -⟩ | hcourse
  · rwa [hsame] at h
  · refine ⟨fun k hloop => h.loopless k (TransGen.mono hcourse.links_le _ _ hloop),
      fun k f hf hnowhere => ?_⟩
    cases hnamed : f.isDetached with
    | true => exact Or.inr rfl
    | false => exact hnamed ▸ h.grounded k f (hcourse.peek?_of_named hf hnamed) hnowhere

theorem straight_find_iff (hs : s.Straight)
    (hkept : (s.find l).2.table.evictions ≤ s.table.evictions) :
    (s.find l).2.Straight ↔ s.Rests l := by
  rw [Rests]
  rcases find_cases hkept with ⟨hsame, hnothing⟩ | hcourse
  · rw [hsame, hnothing]
    exact iff_of_true hs (by simp)
  · have hloopless := hcourse.loopless_iff hs.loopless
    have hgrounded := hcourse.grounded_iff hs.grounded
    exact ⟨fun h w hw => ⟨hgrounded.1 h.grounded w hw, hloopless.1 h.loopless w hw⟩,
      fun h => ⟨hloopless.2 fun w hw => (h w hw).2, hgrounded.2 fun w hw => (h w hw).1⟩⟩

theorem Straight.of_after {lookups : List Lookup}
    (h : (s.after (lookups.map .resolve)).Straight)
    (hkept : (s.after (lookups.map .resolve)).table.evictions ≤ s.table.evictions) :
    s.Straight := by
  induction lookups generalizing s with
  | nil => exact h
  | cons l lookups ih =>
    have hfirst : (s.find l).2.table.evictions ≤ s.table.evictions :=
      (evictions_le_after _).trans hkept
    exact (ih h (hkept.trans (evictions_le_perform (.resolve l)))).of_find hfirst

/-- The chains stay straight just when every walk comes to rest. -/
theorem straight_after_iff {lookups : List Lookup} (hs : s.Straight)
    (hkept : (s.after (lookups.map .resolve)).table.evictions ≤ s.table.evictions) :
    (s.after (lookups.map .resolve)).Straight ↔
      ∀ before l rest, lookups = before ++ l :: rest →
        (s.after (before.map .resolve)).Rests l := by
  induction lookups generalizing s with
  | nil => exact iff_of_true hs fun before l rest hsplit => by simp at hsplit
  | cons first lookups ih =>
    have hfirst : (s.find first).2.table.evictions ≤ s.table.evictions :=
      (evictions_le_after _).trans hkept
    have hrest : _ ≤ (s.find first).2.table.evictions :=
      hkept.trans (evictions_le_perform (.resolve first))
    constructor
    · intro hstraight before l rest hsplit
      have hfound : (s.find first).2.Straight := Straight.of_after hstraight hrest
      cases before with
      | nil =>
        obtain ⟨rfl, rfl⟩ := List.cons.inj hsplit
        exact (straight_find_iff hs hfirst).1 hfound
      | cons _ before =>
        obtain ⟨rfl, hlookups⟩ := List.cons.inj hsplit
        exact (ih hfound hrest).1 hstraight before l rest hlookups
    · intro hrests
      have hfound : (s.find first).2.Straight :=
        (straight_find_iff hs hfirst).2 (hrests [] first lookups rfl)
      refine (ih hfound hrest).2 ?_
      rintro before l rest rfl
      exact hrests (first :: before) l rest rfl

theorem straight_new (capacity : Nat) : (new capacity).Straight := by
  have hnone : ∀ k, (new capacity).table.peek? k = none := fun k => Table.peek?_new _ _
  refine ⟨fun k hloop => ?_, fun k f hf => ?_⟩
  · obtain ⟨next, ⟨f, hf, -⟩, -⟩ := TransGen.head'_iff.1 hloop
    rw [hnone] at hf
    cases hf
  · rw [hnone] at hf
    cases hf

/-- **When chains stop.** Entries are looked up one after another in an empty store, whatever is
read on the way, and nothing is evicted. Following the links from any stored key comes back to no
key and ends at a root or at a detached fragment, just when every walk came to rest. -/
theorem stops_iff_rests (capacity : Nat) (lookups : List Lookup)
    (hkept : ((new capacity).after (lookups.map .resolve)).table.evictions = 0) :
    ((new capacity).after (lookups.map .resolve)).Stops ↔
      ∀ before l rest, lookups = before ++ l :: rest →
        ((new capacity).after (before.map .resolve)).Rests l := by
  rw [stops_iff_straight (closed_after_of_closed (closed_new capacity) _ hkept.le)]
  exact straight_after_iff (straight_new capacity) hkept.le

/-- The walk from the last of 77 entries runs out of depth, and comes to rest at its own mark. The
links from the entry end there. -/
theorem stops_deep :
    ∃ keys last, ((new 152).after [.resolve deep]).Passes ⟨77, 1⟩ keys last ∧ keys.Nodup ∧
      (last.isRoot = true ∨ last.isDetached = true) := by
  have hkept : ((new 152).after [.resolve deep]).table.evictions = 0 :=
    evictions_after_eq_zero (by decide)
  have hwrites : deep.writes (new 152) =
      ((FixedTree.rungs 76).take maxPathDepth).map
        (fun e => (FixedTree.ladder.locate 1 e, FixedTree.ladder.fragment 1 e)) ++
          [(FixedTree.ladder.locate 1 ⟨1⟩, .detached)] := by
    have hdeep := FixedTree.written_deep
    rw [FixedTree.written, FixedTree.written, List.append_nil] at hdeep
    exact (if_neg (by decide)).trans hdeep
  have hstored : (((new 152).find deep).2.table.peek? ⟨77, 1⟩).isSome :=
    (closed_find (closed_new 152).mono rfl hkept.le).2
  refine (stops_iff_rests 152 [deep] hkept).2 ?_ ⟨77, 1⟩ hstored
  rintro (_ | ⟨_, before⟩) l rest hsplit
  · obtain ⟨rfl, -⟩ := List.cons.inj hsplit
    intro w hw
    rw [List.map_nil, after, List.foldl_nil, hwrites, List.getLast?_concat] at hw
    obtain rfl := Option.some.inj hw
    exact ⟨fun _ => Or.inr Fragment.isDetached_detached, fun hparent => absurd rfl hparent⟩
  · simp at hsplit

/-! ### Walks that do not come to rest -/

/-- Where two entries are each the parent of the other, the walk from one of them ends where it
meets that entry again. -/
theorem written_of_mutual {key' : Location} {level level' : Level} (hs : s.Unswept)
    (hroom : s.inserted + 2 ≤ s.table.capacity) (hne : key ≠ key')
    (habsent : s.table.peek? key = none) (habsent' : s.table.peek? key' = none)
    (hup : parentLocation mount level = key') (hback : parentLocation mount level' = key)
    (hkey : key ≠ .nowhere) (hkey' : key' ≠ .nowhere) (again : Level) (above : List Level) :
    written mount s key (level :: level' :: again :: above) =
      [(key, .ofName key' level.name), (key', .ofName key level'.name)] := by
  -- there is room for both fragments
  have hfirst : (s.visit mount key level).Unswept := hs.visit (by omega)
  have hinserted : (s.visit mount key level).inserted = s.inserted + 1 := rfl
  have hsecond : ((s.visit mount key level).visit mount key' level').Unswept :=
    hfirst.visit (by rw [hinserted, capacity_visit]; omega)
  have hkept := (hfirst.evictions_eq.trans hs.evictions_eq.symm).le
  have hkept' := (hsecond.evictions_eq.trans hfirst.evictions_eq.symm).le
  have hmissing : (s.visit mount key level).endsAt key' = false := by
    refine endsAt_of_absent ?_
    rw [peek?_visit_of_kept hkept, if_neg hne, habsent']
  have hstored : ((s.visit mount key level).visit mount key' level').endsAt key = true := by
    rw [endsAt, peek?_visit_of_kept hkept', if_neg hne.symm, peek?_visit_of_kept hkept, if_pos rfl,
      Option.any_some, Bool.not_eq_true', ← Bool.not_eq_true, hup]
    exact fun hdetached => hkey' (Fragment.parent_of_isDetached hdetached)
  rw [written_of_missing (endsAt_of_absent habsent), hup,
    if_neg (mt Location.isNowhere_iff.1 hkey'), written_of_missing hmissing, hback,
    if_neg (mt Location.isNowhere_iff.1 hkey), written_of_stored hstored]

/-- Three entries: the first two are each the parent of the other, and the parent of the third
cannot be read. -/
def circle : Accessor where
  name d size := some ⟨[96 + d.id.toUInt8].take size, ([96 + d.id.toUInt8].take size).length⟩
  parent d := if d.id = 1 then some ⟨2⟩ else if d.id = 2 then some ⟨1⟩ else none
  inode d := some d.id
  mount _ := some 1
  device _ := some 1

/-- What is read of one of the three entries. -/
def circleLevel (d : Handle) : Level :=
  ⟨d, [96 + d.id.toUInt8], d.id, circle.parentOf d, (circle.parentOf d).id⟩

/-- One of the three entries. -/
def onCircle (id : Nat) : Lookup := ⟨.still circle, ⟨id⟩, ⟨id, 1⟩⟩

theorem climb_circle (d : Handle) (buffer : NameBuffer) (depth : Nat) :
    ∃ buffer', climb (.still circle) d buffer (depth + 1) =
      if (circleLevel d).isBoundary then [circleLevel d]
      else circleLevel d :: climb (.still circle) (circle.parentOf d) buffer' depth := by
  have hlevel : (readLevel circle d buffer).1 = circleLevel d := by
    simp only [readLevel, FixedTree.fst_readName (a := circle) (d := d) rfl]
    rfl
  refine ⟨(readLevel circle d buffer).2, ?_⟩
  rw [climb_still, hlevel]
  rfl

theorem exists_levels_circle : ∃ above,
    (onCircle 1).levels = circleLevel ⟨1⟩ :: circleLevel ⟨2⟩ :: circleLevel ⟨1⟩ :: above := by
  obtain ⟨buffer, hfirst⟩ := climb_circle ⟨1⟩ (.zero _) 74
  obtain ⟨buffer', hsecond⟩ := climb_circle ⟨2⟩ buffer 73
  obtain ⟨buffer'', hthird⟩ := climb_circle ⟨1⟩ buffer' 72
  rw [if_neg (by decide)] at hfirst hsecond hthird
  exact ⟨_, hfirst.trans (congrArg _ (hsecond.trans (congrArg _ hthird)))⟩

theorem writes_circle :
    (onCircle 1).writes (new 152) =
      [(⟨1, 1⟩, .ofName ⟨2, 1⟩ [97]), (⟨2, 1⟩, .ofName ⟨1, 1⟩ [98])] := by
  obtain ⟨above, hlevels⟩ := exists_levels_circle
  have hup : parentLocation 1 (circleLevel ⟨1⟩) = ⟨2, 1⟩ := rfl
  have hback : parentLocation 1 (circleLevel ⟨2⟩) = ⟨1, 1⟩ := rfl
  rw [Lookup.writes, hlevels]
  exact written_of_mutual (unswept_new 152) (by decide) (by decide) (Table.peek?_new _ _)
    (Table.peek?_new _ _) hup hback (by decide) (by decide) _ _

theorem kept_circle :
    ((new 152).find (onCircle 1)).2.table.evictions = 0 ∧
      (((new 152).find (onCircle 1)).2.find (onCircle 3)).2.table.evictions = 0 := by
  have hfirst : ((new 152).after [.resolve (onCircle 1)]).table.evictions = 0 :=
    evictions_after_eq_zero (by decide)
  have hsecond :
      ((new 152).after [.resolve (onCircle 1), .resolve (onCircle 3)]).table.evictions = 0 :=
    evictions_after_eq_zero (by decide)
  exact ⟨hfirst, hsecond⟩

theorem peek?_circle (k : Location) :
    ((new 152).find (onCircle 1)).2.table.peek? k =
      leave k none [(⟨1, 1⟩, .ofName ⟨2, 1⟩ [97]), (⟨2, 1⟩, .ofName ⟨1, 1⟩ [98])] := by
  have hnone : (new 152).table.peek? k = none := Table.peek?_new _ _
  rw [peek?_find kept_circle.1.le, writes_circle, hnone]

/-- The walk from the third entry stores it as a boundary. -/
theorem writes_unreadable :
    (onCircle 3).writes ((new 152).find (onCircle 1)).2 = [(⟨3, 1⟩, .ofName .nowhere [99])] := by
  obtain ⟨buffer, hlevels⟩ := climb_circle ⟨3⟩ (.zero _) 74
  rw [if_pos (by decide)] at hlevels
  have hmissing : ((new 152).find (onCircle 1)).2.endsAt ⟨3, 1⟩ = false :=
    endsAt_of_absent (peek?_circle ⟨3, 1⟩)
  rw [Lookup.writes, show (onCircle 3).levels = [circleLevel ⟨3⟩] from hlevels]
  exact written_of_missing hmissing (circleLevel ⟨3⟩) []

/-- **A chain that comes back, and one that ends at neither a root nor a detached fragment.** The
links from the first entry on the circle lead back to it, since its walk ended there. The entry
whose parent cannot be read is stored without parent, but with its name. -/
theorem loops_on_circle :
    ((new 152).after [.resolve (onCircle 1), .resolve (onCircle 3)]).table.evictions = 0 ∧
    TransGen ((new 152).after [.resolve (onCircle 1), .resolve (onCircle 3)]).Links ⟨1, 1⟩ ⟨1, 1⟩ ∧
    ∃ f, ((new 152).after [.resolve (onCircle 1), .resolve (onCircle 3)]).Passes ⟨3, 1⟩ [⟨3, 1⟩] f ∧
      f.isRoot = false ∧ f.isDetached = false := by
  have hpeek : ∀ k, (((new 152).find (onCircle 1)).2.find (onCircle 3)).2.table.peek? k =
      leave k (leave k none [(⟨1, 1⟩, .ofName ⟨2, 1⟩ [97]), (⟨2, 1⟩, .ofName ⟨1, 1⟩ [98])])
        [(⟨3, 1⟩, .ofName .nowhere [99])] := by
    intro k
    rw [peek?_find (kept_circle.2.trans kept_circle.1.symm).le, writes_unreadable, peek?_circle]
  refine ⟨kept_circle.2, ?_, ?_⟩
  · have hup : Links _ ⟨1, 1⟩ ⟨2, 1⟩ := ⟨_, hpeek ⟨1, 1⟩, rfl, by decide⟩
    have hback : Links _ ⟨2, 1⟩ ⟨1, 1⟩ := ⟨_, hpeek ⟨2, 1⟩, rfl, by decide⟩
    exact .head hup (.single hback)
  · exact ⟨_, .last (hpeek ⟨3, 1⟩) rfl, by decide, by decide⟩

end FragmentStore

end FsTrace
