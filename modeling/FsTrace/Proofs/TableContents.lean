import FsTrace.Table
import Mathlib.Tactic

/-!
# What a table holds

Every operation of a table, as far as `Table.peek?` tells: the marks and the queue are left out.

* a use changes no value (`peek?_get`, `peek?_contains`), `remove` takes one value out;
* `Swept`: a sweep drops the key that it gives and keeps the values of all others;
* `insert` sets one value (`peek?_insert_self`), drops the key that it gives
  (`peek?_of_insert_evicts`), and keeps all others (`peek?_insert_of_ne`);
* a table that counts no eviction has dropped nothing (`fst_insert_eq_none`), and one with room for
  one more drops nothing (`insert_of_room`).
-/

namespace FsTrace

namespace Table

variable {κ ν : Type} [BEq κ] [Hashable κ]

/-! ### What operations give, and what they count -/

@[simp] theorem fst_get (t : Table κ ν) (key : κ) : (t.get key).1 = t.peek? key := by
  unfold get peek?
  cases t.entries[key]? <;> rfl

@[simp] theorem evictions_get (t : Table κ ν) (key : κ) :
    (t.get key).2.evictions = t.evictions := by
  unfold get
  split <;> rfl

@[simp] theorem capacity_get (t : Table κ ν) (key : κ) :
    (t.get key).2.capacity = t.capacity := by
  unfold get
  split <;> rfl

@[simp] theorem fst_contains (t : Table κ ν) (key : κ) :
    (t.contains key).1 = (t.peek? key).isSome := by
  simp [contains]

@[simp] theorem snd_contains (t : Table κ ν) (key : κ) : (t.contains key).2 = (t.get key).2 := rfl

@[simp] theorem fst_remove (t : Table κ ν) (key : κ) : (t.remove key).1 = t.peek? key := by
  unfold remove peek?
  cases t.entries[key]? <;> rfl

@[simp] theorem evictions_remove (t : Table κ ν) (key : κ) :
    (t.remove key).2.evictions = t.evictions := by
  unfold remove
  split <;> rfl

@[simp] theorem capacity_remove (t : Table κ ν) (key : κ) :
    (t.remove key).2.capacity = t.capacity := by
  unfold remove
  split <;> rfl

@[simp] theorem queue_get (t : Table κ ν) (key : κ) : (t.get key).2.queue = t.queue := by
  unfold get
  split <;> rfl

@[simp] theorem queue_remove (t : Table κ ν) (key : κ) : (t.remove key).2.queue = t.queue := by
  unfold remove
  split <;> rfl

theorem entryAt?_eq_some_iff {t : Table κ ν} {place : κ × Nat} {entry : Entry ν} :
    t.entryAt? place = some entry ↔
      t.entries[place.1]? = some entry ∧ entry.admission = place.2 := by
  simp [entryAt?, Option.filter_eq_some_iff]

theorem entries_append (t : Table κ ν) (key : κ) (value : ν) :
    (t.append key value).entries = t.entries.insert key ⟨value, t.clock + 1, false⟩ := by
  unfold append
  simp only
  split <;> rfl

@[simp] theorem evictions_append (t : Table κ ν) (key : κ) (value : ν) :
    (t.append key value).evictions = t.evictions := by
  unfold append
  simp only
  split <;> rfl

@[simp] theorem capacity_append (t : Table κ ν) (key : κ) (value : ν) :
    (t.append key value).capacity = t.capacity := by
  unfold append
  simp only
  split <;> rfl

theorem insert_of_absent {t : Table κ ν} {key : κ} (h : t.peek? key = none) (value : ν) :
    t.insert key value = (t.makeRoom.1, t.makeRoom.2.append key value) := by
  unfold insert
  rw [Option.map_eq_none_iff.1 h]

theorem insert_of_present {t : Table κ ν} {key : κ} {entry : Entry ν}
    (h : t.entries[key]? = some entry) (value : ν) :
    t.insert key value =
      (none, { t with entries := t.entries.insert key { entry with value, used := true } }) := by
  unfold insert
  rw [h]

/-- Which key has to make room does not depend on the value. -/
theorem fst_insert (t : Table κ ν) (key : κ) (value value' : ν) :
    (t.insert key value).1 = (t.insert key value').1 := by
  cases h : t.entries[key]? with
  | none =>
    have habsent : t.peek? key = none := by simp [peek?, h]
    rw [insert_of_absent habsent, insert_of_absent habsent]
  | some entry => rw [insert_of_present h, insert_of_present h]

variable [LawfulBEq κ]

/-! ### Uses and removals -/

@[simp] theorem peek?_new (capacity : Nat) (key : κ) :
    (new capacity : Table κ ν).peek? key = none := by
  simp [new, peek?]

/-- Setting the mark of an entry changes no value. -/
theorem map_value_insert_mark {t : Table κ ν} {key : κ} {entry : Entry ν}
    (h : t.entries[key]? = some entry) (used : Bool) (k : κ) :
    ((t.entries.insert key { entry with used })[k]?).map (·.value) = t.peek? k := by
  rw [Std.HashMap.getElem?_insert, peek?]
  by_cases hk : key = k
  · subst hk
    simp [h]
  · simp [hk]

@[simp] theorem peek?_get (t : Table κ ν) (key k : κ) : (t.get key).2.peek? k = t.peek? k := by
  unfold get
  split
  · next entry h => exact map_value_insert_mark h true k
  · rfl

@[simp] theorem peek?_remove_self (t : Table κ ν) (key : κ) :
    (t.remove key).2.peek? key = none := by
  unfold remove
  split
  · simp [peek?]
  · next h => simp [peek?, h]

theorem peek?_remove_of_ne (t : Table κ ν) {key k : κ} (h : key ≠ k) :
    (t.remove key).2.peek? k = t.peek? k := by
  unfold remove
  split
  · simp [peek?, Std.HashMap.getElem?_erase, h]
  · rfl

/-! ### Sweeps -/

/-- What a sweep does to the values of a table. -/
structure Swept (t : Table κ ν) (result : Option κ × Table κ ν) : Prop where
  kept : ∀ k, result.1 ≠ some k → result.2.peek? k = t.peek? k
  dropped : ∀ k, result.1 = some k → result.2.peek? k = none
  evictions_eq : result.2.evictions = t.evictions + result.1.toList.length
  clock_eq : result.2.clock = t.clock
  capacity_eq : result.2.capacity = t.capacity

omit [LawfulBEq κ] in
/-- A table in which nothing but marks and the queue changed may be swept in place of the first. -/
theorem Swept.of_same {t u : Table κ ν} {result : Option κ × Table κ ν} (h : Swept u result)
    (hvalues : ∀ k, u.peek? k = t.peek? k) (hevictions : u.evictions = t.evictions)
    (hclock : u.clock = t.clock) (hcapacity : u.capacity = t.capacity) : Swept t result where
  kept k hk := (h.kept k hk).trans (hvalues k)
  dropped := h.dropped
  evictions_eq := by rw [h.evictions_eq, hevictions]
  clock_eq := h.clock_eq.trans hclock
  capacity_eq := h.capacity_eq.trans hcapacity

theorem swept_sweep (chances : Nat) (t : Table κ ν) : Swept t (t.sweep chances) := by
  fun_induction sweep chances t with
  | case1 => exact ⟨fun _ _ => rfl, by simp, by simp, rfl, rfl⟩
  | case2 t place queue _ _ _ ih => exact ih.of_same (fun _ => rfl) rfl rfl rfl
  | case3 t place queue _ value admission _ hplace ih =>
    -- the used entry only loses its mark
    have hentry := (entryAt?_eq_some_iff.1 hplace).1
    exact ih.of_same (fun k => map_value_insert_mark hentry false k) rfl rfl rfl
  | case4 chances t place queue =>
    refine ⟨fun k hk => ?_, fun k hk => ?_, by simp, rfl, rfl⟩
    · have hne : place.1 ≠ k := fun h => hk (by simp [h])
      simp [peek?, Std.HashMap.getElem?_erase, hne]
    · obtain rfl : place.1 = k := by simpa using hk
      simp [peek?]

theorem swept_makeRoom (t : Table κ ν) : Swept t t.makeRoom := by
  unfold makeRoom
  split
  · exact ⟨fun _ _ => rfl, by simp, by simp, rfl, rfl⟩
  · exact swept_sweep _ t

/-- Making room brings no key in. -/
theorem peek?_makeRoom_of_absent {t : Table κ ν} {key : κ} (h : t.peek? key = none) :
    t.makeRoom.2.peek? key = none := by
  by_cases hevicts : t.makeRoom.1 = some key
  · exact (swept_makeRoom t).dropped key hevicts
  · rw [(swept_makeRoom t).kept key hevicts, h]

/-! ### Insertions -/

theorem peek?_append (t : Table κ ν) (key : κ) (value : ν) (k : κ) :
    (t.append key value).peek? k = if key == k then some value else t.peek? k := by
  rw [peek?, entries_append, Std.HashMap.getElem?_insert, peek?]
  split <;> rfl

@[simp] theorem peek?_insert_self (t : Table κ ν) (key : κ) (value : ν) :
    (t.insert key value).2.peek? key = some value := by
  cases h : t.entries[key]? with
  | none => rw [insert_of_absent (by simp [peek?, h])]; simp [peek?_append]
  | some entry => rw [insert_of_present h]; simp [peek?]

/-- A key that does not have to make room keeps its value. -/
theorem peek?_insert_of_ne {t : Table κ ν} {key k : κ} {value : ν} (hk : key ≠ k)
    (hkept : (t.insert key value).1 ≠ some k) : (t.insert key value).2.peek? k = t.peek? k := by
  cases h : t.entries[key]? with
  | none =>
    rw [insert_of_absent (by simp [peek?, h])] at hkept ⊢
    rw [peek?_append, if_neg (by simpa using hk)]
    exact (swept_makeRoom t).kept k hkept
  | some entry =>
    rw [insert_of_present h]
    simp [peek?, Std.HashMap.getElem?_insert, hk]

/-- The key that has to make room is a present one, and is gone. -/
theorem peek?_of_insert_evicts {t : Table κ ν} {key k : κ} {value : ν} (hk : key ≠ k)
    (hevicts : (t.insert key value).1 = some k) : (t.insert key value).2.peek? k = none := by
  cases h : t.entries[key]? with
  | none =>
    rw [insert_of_absent (by simp [peek?, h])] at hevicts ⊢
    rw [peek?_append, if_neg (by simpa using hk)]
    exact (swept_makeRoom t).dropped k hevicts
  | some entry => simp [insert_of_present h] at hevicts

/-- A value that is held after a new one was let in is that one, or was held before. -/
theorem peek?_of_insert {t : Table κ ν} {key k : κ} {value v : ν}
    (h : (t.insert key value).2.peek? k = some v) : k = key ∧ v = value ∨ t.peek? k = some v := by
  by_cases hk : key = k
  · subst hk
    rw [peek?_insert_self] at h
    exact Or.inl ⟨rfl, (Option.some.inj h).symm⟩
  · by_cases hevicts : (t.insert key value).1 = some k
    · rw [peek?_of_insert_evicts hk hevicts] at h
      cases h
    · rw [peek?_insert_of_ne hk hevicts] at h
      exact Or.inr h

theorem evictions_insert (t : Table κ ν) (key : κ) (value : ν) :
    (t.insert key value).2.evictions =
      t.evictions + (t.insert key value).1.toList.length := by
  cases h : t.entries[key]? with
  | none =>
    rw [insert_of_absent (by simp [peek?, h]), evictions_append]
    exact (swept_makeRoom t).evictions_eq
  | some entry => simp [insert_of_present h]

@[simp] theorem capacity_insert (t : Table κ ν) (key : κ) (value : ν) :
    (t.insert key value).2.capacity = t.capacity := by
  cases h : t.entries[key]? with
  | none =>
    rw [insert_of_absent (by simp [peek?, h]), capacity_append]
    exact (swept_makeRoom t).capacity_eq
  | some entry => simp [insert_of_present h]

theorem fst_insert_eq_none {t : Table κ ν} {key : κ} {value : ν}
    (h : (t.insert key value).2.evictions ≤ t.evictions) : (t.insert key value).1 = none := by
  rw [evictions_insert] at h
  cases hevicted : (t.insert key value).1 with
  | none => rfl
  | some k => simp [hevicted] at h

/-! ### Room -/

theorem peek?_of_empty {t : Table κ ν} (h : t.size = 0) (key : κ) : t.peek? key = none := by
  have hempty : t.entries.isEmpty = true := by
    rw [Std.HashMap.isEmpty_eq_size_eq_zero]
    exact beq_iff_eq.2 h
  rw [peek?, Std.HashMap.getElem?_of_isEmpty hempty, Option.map_none]

theorem size_get (t : Table κ ν) (key : κ) : (t.get key).2.size = t.size := by
  unfold get
  split
  · next entry h =>
    have hmem : key ∈ t.entries := Std.HashMap.mem_iff_isSome_getElem?.2 (h ▸ rfl)
    rw [size, Std.HashMap.size_insert, if_pos hmem, size]
  · rfl

theorem size_remove_le (t : Table κ ν) (key : κ) : (t.remove key).2.size ≤ t.size := by
  unfold remove
  split
  · exact Std.HashMap.size_erase_le
  · exact le_rfl

/-- A table with room for one more drops nothing. -/
theorem insert_of_room {t : Table κ ν} (h : t.size < t.capacity) (key : κ) (value : ν) :
    (t.insert key value).1 = none ∧ (t.insert key value).2.size ≤ t.size + 1 := by
  cases hentry : t.entries[key]? with
  | none =>
    rw [insert_of_absent (by simp [peek?, hentry]), makeRoom, if_pos h]
    refine ⟨rfl, ?_⟩
    rw [size, entries_append]
    exact Std.HashMap.size_insert_le
  | some entry =>
    rw [insert_of_present hentry]
    exact ⟨rfl, Std.HashMap.size_insert_le⟩

end Table

end FsTrace
