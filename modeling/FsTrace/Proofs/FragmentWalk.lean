import FsTrace.Proofs.TableContents
import FsTrace.Resolver.FragmentStore

/-!
# Walks that store fragments

What one walk does to a fragment table, whatever it reads on its way up.

* `FragmentStore.visit`: a walk stores an entry that it found absent or detached;
* `storeLevels_of_stored`, `storeLevels_of_missing`: one step of a walk;
* `FragmentStore.puts`: the fragments that a walk writes, each with the key that had to make room;
* `Lost`: a key had to make room and was not stored again. `held_iff`: all others are held;
* `FragmentStore.Writes`: what a walk does, as looks and puts. `Writes.isSome_iff`: what is stored
  afterwards is what the puts leave, and `Writes.unswept`: with room for all puts, nothing is
  evicted.
-/

namespace FsTrace

namespace FragmentStore

variable {mount : MountId} {s : FragmentStore} {key : Location} {level : Level}

/-- Whether a walk ends at a key: a fragment is stored there that is not detached. -/
def endsAt (s : FragmentStore) (key : Location) : Bool :=
  (s.table.peek? key).any (! ·.isDetached)

theorem endsAt_of_absent (h : s.table.peek? key = none) : s.endsAt key = false := by
  rw [endsAt, h]
  rfl

/-- The store after a look at a key. -/
def look (s : FragmentStore) (key : Location) : FragmentStore :=
  { s with table := (s.table.get key).2 }

/-- A walk stores an entry under a key that it looked at. -/
def visit (mount : MountId) (s : FragmentStore) (key : Location) (level : Level) : FragmentStore :=
  (s.look key).put key (.ofName (parentLocation mount level) level.name)

/-! ### One step of a walk -/

theorem storeLevels_of_stored (h : s.endsAt key = true) (above : List Level) :
    storeLevels mount s key (level :: above) =
      (false, { s.look key with deduplicated := s.deduplicated + 1 }) := by
  rw [endsAt, ← Table.fst_get] at h
  exact if_pos h

theorem storeLevels_of_missing (h : s.endsAt key = false) (above : List Level) :
    storeLevels mount s key (level :: above) =
      if (parentLocation mount level).isNowhere then (false, s.visit mount key level)
      else storeLevels mount (s.visit mount key level) (parentLocation mount level) above := by
  rw [endsAt, ← Table.fst_get] at h
  exact if_neg (ne_true_of_eq_false h)

@[simp] theorem peek?_look (k : Location) : (s.look key).table.peek? k = s.table.peek? k :=
  Table.peek?_get _ _ _

@[simp] theorem evictions_look : (s.look key).table.evictions = s.table.evictions :=
  Table.evictions_get _ _

/-! ### Putting a fragment -/

variable {fragment f : Fragment} {k : Location}

/-- A fragment that was written: its key, and the key that had to make room for it. -/
structure Put where
  key : Location
  evicted : Option Location

/-- What is noted of a put. -/
def noted (s : FragmentStore) (key : Location) (fragment : Fragment) : Put :=
  ⟨key, (s.table.insert key fragment).1⟩

@[simp] theorem peek?_put_self : (s.put key fragment).table.peek? key = some fragment :=
  Table.peek?_insert_self _ _ _

/-- A fragment that is stored after a put was stored before, or is the one put. -/
theorem peek?_of_put (h : (s.put key fragment).table.peek? k = some f) :
    k = key ∧ f = fragment ∨ s.table.peek? k = some f := Table.peek?_of_insert h

theorem isSome_put_iff :
    ((s.put key fragment).table.peek? k).isSome ↔
      key = k ∨ (s.table.peek? k).isSome ∧ (s.noted key fragment).evicted ≠ some k := by
  by_cases hk : key = k
  · subst hk
    simp
  · by_cases hevicts : (s.table.insert key fragment).1 = some k
    · rw [put, Table.peek?_of_insert_evicts hk hevicts]
      simp [hk, noted, hevicts]
    · rw [put, Table.peek?_insert_of_ne hk hevicts]
      simp [hk, noted, hevicts]

/-! ### What a list of puts leaves -/

/-- Whether a key is held after some puts, given whether it was before. -/
def Held (k : Location) (held : Prop) : List Put → Prop
  | [] => held
  | p :: ps => Held k (p.key = k ∨ held ∧ p.evicted ≠ some k) ps

/-- A key had to make room and was not stored again. -/
def Lost (k : Location) (ps : List Put) : Prop :=
  ∃ before p after, ps = before ++ p :: after ∧ p.evicted = some k ∧ ∀ q ∈ p :: after, q.key ≠ k

variable {held : Prop} {p : Put} {ps : List Put}

theorem lost_cons_iff :
    Lost k (p :: ps) ↔ (p.evicted = some k ∧ ∀ q ∈ p :: ps, q.key ≠ k) ∨ Lost k ps := by
  constructor
  · rintro ⟨before, q, after, hsplit, hlost⟩
    cases before with
    | nil =>
      obtain ⟨rfl, rfl⟩ := List.cons.inj hsplit
      exact Or.inl hlost
    | cons first before =>
      exact Or.inr ⟨before, q, after, (List.cons.inj hsplit).2, hlost⟩
  · rintro (hlost | ⟨before, q, after, rfl, hlost⟩)
    · exact ⟨[], p, ps, rfl, hlost⟩
    · exact ⟨p :: before, q, after, rfl, hlost⟩

/-- A key is held if it was held before or stored since, and was not lost. -/
theorem held_iff :
    Held k held ps ↔ (held ∨ k ∈ ps.map Put.key) ∧ ¬ Lost k ps := by
  induction ps generalizing held with
  | nil =>
    have hnone : ¬ Lost k [] := by
      rintro ⟨before, p, after, hsplit, -⟩
      simp at hsplit
    simp [Held, hnone]
  | cons p ps ih =>
    have hkeys : (∀ q ∈ p :: ps, q.key ≠ k) ↔ p.key ≠ k ∧ k ∉ ps.map Put.key := by
      simp
    rw [Held, ih, lost_cons_iff, hkeys, List.map_cons, List.mem_cons, eq_comm (a := k)]
    tauto

/-- Without evictions nothing is lost. -/
theorem not_lost (h : ps.countP (·.evicted.isSome) = 0) : ¬ Lost k ps := by
  rintro ⟨before, p, after, rfl, hevicted, -⟩
  have := List.countP_eq_zero.1 h p (by simp)
  simp [hevicted] at this

/-! ### The puts of a walk -/

/-- The fragments that a walk writes, in order. -/
def puts (mount : MountId) (s : FragmentStore) (key : Location) : List Level → List Put
  | [] => if (s.table.peek? key).isSome then [] else [(s.look key).noted key .detached]
  | level :: above =>
    if s.endsAt key then []
    else
      let p := (s.look key).noted key (.ofName (parentLocation mount level) level.name)
      if (parentLocation mount level).isNowhere then [p]
      else p :: puts mount (s.visit mount key level) (parentLocation mount level) above

theorem length_puts_le (levels : List Level) :
    (puts mount s key levels).length ≤ levels.length + 1 := by
  induction levels generalizing s key with
  | nil =>
    rw [puts]
    split <;> simp
  | cons level above ih =>
    rw [puts]
    split
    · exact Nat.zero_le _
    · simp only
      split
      · simp
      · simpa using ih

theorem markCut_of_stored (h : (s.table.peek? key).isSome) : s.markCut key = s.look key := by
  rw [← Table.fst_contains] at h
  exact if_pos h

theorem markCut_of_absent (h : ¬ (s.table.peek? key).isSome) :
    s.markCut key = (s.look key).put key .detached := by
  rw [← Table.fst_contains] at h
  exact if_neg h

/-! ### Looks and puts -/

/-- Some looks and these puts lead from one store to another. -/
inductive Writes : FragmentStore → List Put → FragmentStore → Prop
  | done {s : FragmentStore} : Writes s [] s
  | count {s s' : FragmentStore} {ps : List Put} (deduplicated : Nat) :
    Writes { s with deduplicated } ps s' → Writes s ps s'
  | look {s s' : FragmentStore} {ps : List Put} (key : Location) :
    Writes (s.look key) ps s' → Writes s ps s'
  | put {s s' : FragmentStore} {ps : List Put} (key : Location) (fragment : Fragment) :
    Writes (s.put key fragment) ps s' → Writes s (s.noted key fragment :: ps) s'

variable {s' s'' : FragmentStore} {ps' : List Put}

theorem Writes.trans (h : Writes s ps s') (h' : Writes s' ps' s'') : Writes s (ps ++ ps') s'' := by
  induction h with
  | done => exact h'
  | count n _ ih => exact .count n (ih h')
  | look key _ ih => exact .look key (ih h')
  | put key fragment _ ih => exact .put key fragment (ih h')

/-- A walk is some looks and its puts. -/
theorem writes_storeLevels (levels : List Level) :
    Writes s (puts mount s key levels) (storeLevels mount s key levels).2 := by
  induction levels generalizing s key with
  | nil =>
    rw [storeLevels, puts]
    split
    · next h => exact markCut_of_stored h ▸ .look key .done
    · next h => exact markCut_of_absent h ▸ .look key (.put key .detached .done)
  | cons level above ih =>
    rw [puts]
    split
    · next h =>
      rw [storeLevels_of_stored h]
      exact .look key (.count _ .done)
    · next h =>
      rw [storeLevels_of_missing (by simpa using h)]
      split
      · exact .look key (.put key _ .done)
      · exact .look key (.put key _ ih)

theorem Writes.evictions_eq (h : Writes s ps s') :
    s'.table.evictions = s.table.evictions + ps.countP (·.evicted.isSome) := by
  induction h with
  | done => rfl
  | count n _ ih => exact ih
  | look key _ ih => rw [ih, evictions_look]
  | @put s s' ps key fragment _ ih =>
    rw [ih, FragmentStore.put, Table.evictions_insert, List.countP_cons, noted]
    cases (s.table.insert key fragment).1
    · rfl
    · exact Nat.add_right_comm _ _ _

theorem Writes.inserted_eq (h : Writes s ps s') : s'.inserted = s.inserted + ps.length := by
  induction h with
  | done => rfl
  | count n _ ih => exact ih
  | look key _ ih => exact ih
  | put key fragment _ ih =>
    rw [ih, List.length_cons]
    exact Nat.add_right_comm _ _ _

theorem Writes.capacity_eq (h : Writes s ps s') : s'.table.capacity = s.table.capacity := by
  induction h with
  | done => rfl
  | count n _ ih => exact ih
  | look key _ ih => exact ih.trans (Table.capacity_get _ _)
  | put key fragment _ ih => exact ih.trans (Table.capacity_insert _ _ _)

/-- What is stored afterwards is what the puts leave. -/
theorem Writes.isSome_iff (h : Writes s ps s') :
    (s'.table.peek? k).isSome ↔ Held k ((s.table.peek? k).isSome) ps := by
  induction h with
  | done => rfl
  | count n _ ih => exact ih
  | look key _ ih => rw [ih, peek?_look]
  | put key fragment _ ih =>
    rw [ih, propext isSome_put_iff]
    rfl

/-! ### Room -/

/-- Where there is room for all puts, nothing more is evicted. -/
theorem Writes.evictions_of_room (h : Writes s ps s')
    (hroom : s.table.size + ps.length ≤ s.table.capacity) :
    s'.table.evictions = s.table.evictions := by
  induction h with
  | done => rfl
  | count n _ ih => exact ih hroom
  | @look s s' ps key _ ih =>
    have hsize : (s.look key).table.size = s.table.size := Table.size_get _ _
    have hcapacity : (s.look key).table.capacity = s.table.capacity := Table.capacity_get _ _
    exact (ih (by omega)).trans evictions_look
  | @put s s' ps key fragment _ ih =>
    rw [List.length_cons] at hroom
    have hcapacity : (s.put key fragment).table.capacity = s.table.capacity :=
      Table.capacity_insert _ _ _
    obtain ⟨hnone, hsize⟩ := Table.insert_of_room (t := s.table) (by omega) key fragment
    have hsize' : (s.put key fragment).table.size ≤ s.table.size + 1 := hsize
    rw [ih (by omega), FragmentStore.put, Table.evictions_insert, hnone]
    rfl

/-- Nothing was evicted so far, and no more fragments are there than were written. -/
structure Unswept (s : FragmentStore) : Prop where
  evictions_eq : s.table.evictions = 0
  size_le : s.table.size ≤ s.inserted

theorem unswept_new (capacity : Nat) : (new capacity).Unswept :=
  ⟨rfl, (Std.HashMap.size_empty).le⟩

theorem Unswept.look (h : s.Unswept) : (s.look key).Unswept :=
  ⟨evictions_look.trans h.evictions_eq, (Table.size_get _ _).trans_le h.size_le⟩

theorem Unswept.put (h : s.Unswept) (hroom : s.inserted < s.table.capacity) :
    (s.put key fragment).Unswept := by
  obtain ⟨hnone, hsize⟩ := Table.insert_of_room (h.size_le.trans_lt hroom) key fragment
  refine ⟨?_, hsize.trans (Nat.succ_le_succ h.size_le)⟩
  rw [FragmentStore.put, Table.evictions_insert, hnone, h.evictions_eq]
  rfl

theorem capacity_visit : (s.visit mount key level).table.capacity = s.table.capacity :=
  (Table.capacity_insert _ _ _).trans (Table.capacity_get _ _)

theorem Unswept.visit (h : s.Unswept) (hroom : s.inserted < s.table.capacity) :
    (s.visit mount key level).Unswept := by
  have hcapacity : (s.look key).table.capacity = s.table.capacity := Table.capacity_get _ _
  exact h.look.put (hcapacity.symm ▸ hroom)

/-- Where there is room for all puts, nothing is evicted. -/
theorem Writes.unswept (h : Writes s ps s') (hs : s.Unswept)
    (hroom : s.inserted + ps.length ≤ s.table.capacity) : s'.Unswept := by
  induction h with
  | done => exact hs
  | count n _ ih => exact ih ⟨hs.evictions_eq, hs.size_le⟩ hroom
  | @look s s' ps key _ ih =>
    have hcapacity : (s.look key).table.capacity = s.table.capacity := Table.capacity_get _ _
    exact ih hs.look (hcapacity.symm ▸ hroom)
  | @put s s' ps key fragment _ ih =>
    rw [List.length_cons] at hroom
    have hput : (s.put key fragment).inserted = s.inserted + 1 := rfl
    have hcapacity : (s.put key fragment).table.capacity = s.table.capacity :=
      Table.capacity_insert _ _ _
    exact ih (hs.put (by omega)) (by omega)

end FragmentStore

end FsTrace
