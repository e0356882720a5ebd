import FsTrace.Proofs.LiveQueue

/-!
# The limits of a table

A table never holds more entries than its capacity, nor more than twice as many places in its queue,
whatever is asked of it. A full table finds an entry to drop, so that every key that was ever let in
is held, was dropped to make room, or was taken out.

* `Run.total`, what the steps of a run amount to, and `Run.balance`: what each step balances, a
  whole run balances;
* `length_sweepItems`, `size_sweep`: a sweep drops one entry, if there is any;
* `Table.Bounded`: a valid table within its limits. A new table is one (`bounded_new`), and every
  request keeps it one (`Bounded.perform`);
* `Bounded.sweepWhileFull_eq_makeRoom`: to sweep until there is room is to sweep once;
* `Bounded.isSome_insert_iff`, `fst_insert_eq_some_iff`: when a key has to make room, and which;
* `balance_perform`: what a request lets in and takes out;
* `Table.accounted_after`: all of this after any sequence of requests.
-/

namespace FsTrace

/-! ### Runs and what they amount to -/

namespace Run

variable {σ α : Type} {next : σ → α → σ} {s : σ}

/-- What the steps of a run amount to, given what each of them counts for. -/
def total (next : σ → α → σ) (count : σ → α → Nat) (s : σ) : List α → Nat
  | [] => 0
  | a :: as => count s a + total next count (next s a) as

theorem total_zero (as : List α) : total next (fun _ _ => 0) s as = 0 := by
  induction as generalizing s with
  | nil => rfl
  | cons a as ih => rw [total, ih]

/-- What depends on the steps alone is counted in the list of steps. -/
theorem total_toNat (p : α → Bool) (as : List α) :
    total next (fun _ a => (p a).toNat) s as = as.countP p := by
  induction as generalizing s with
  | nil => rfl
  | cons a as ih => cases h : p a <;> simp [total, ih, h, Nat.add_comm]

/-- What balances at each step balances over a whole run. -/
theorem balance (credit debit : σ → Nat) (gain loss : σ → α → Nat) (holds : σ → Prop)
    (hnext : ∀ s a, holds s → holds (next s a))
    (hstep : ∀ s a, holds s →
      credit (next s a) + debit s + loss s a = credit s + debit (next s a) + gain s a)
    (hs : holds s) (as : List α) :
    credit (as.foldl next s) + debit s + total next loss s as =
      credit s + debit (as.foldl next s) + total next gain s as := by
  induction as generalizing s with
  | nil => rfl
  | cons a as ih =>
    have hrest := ih (hnext s a hs)
    have hfirst := hstep s a hs
    simp only [List.foldl_cons, total]
    omega

end Run

namespace Table

variable {κ ν : Type} [BEq κ] [Hashable κ] {t : Table κ ν} {key k : κ} {value : ν} {chances : Nat}

/-! ### Sweeps -/

omit [BEq κ] [Hashable κ] in
/-- The sweep of a list drops one item, if there is any. -/
theorem length_sweepItems (chances : Nat) (items : List (κ × Entry ν)) :
    (sweepItems chances items).2.length + (sweepItems chances items).1.toList.length =
      items.length := by
  fun_induction sweepItems chances items with
  | case1 => rfl
  | case2 chances key value admission rest ih =>
    rw [ih, List.length_append]
    rfl
  | case3 => rfl

omit [BEq κ] [Hashable κ] in
theorem isSome_sweepItems (chances : Nat) (items : List (κ × Entry ν)) :
    (sweepItems chances items).1.isSome ↔ items ≠ [] := by
  fun_induction sweepItems chances items with
  | case1 => simp
  | case2 chances key value admission rest ih => simp [ih]
  | case3 => simp

omit [BEq κ] [Hashable κ] in
theorem mem_of_sweepItems {items : List (κ × Entry ν)}
    (h : (sweepItems chances items).1 = some k) : ∃ item ∈ items, item.1 = k := by
  fun_induction sweepItems chances items with
  | case1 => cases h
  | case2 chances key value admission rest ih =>
    obtain ⟨item, hitem, hkey⟩ := ih h
    rcases List.mem_append.1 hitem with hrest | hlast
    · exact ⟨item, List.mem_cons_of_mem _ hrest, hkey⟩
    · obtain rfl := List.mem_singleton.1 hlast
      exact ⟨_, List.mem_cons_self, hkey⟩
  | case3 chances key entry rest =>
    exact ⟨_, List.mem_cons_self, Option.some.inj h⟩

theorem length_sweep_le (chances : Nat) (t : Table κ ν) :
    (t.sweep chances).2.queue.length ≤ t.queue.length := by
  fun_induction sweep chances t with
  | case1 => exact le_rfl
  | case2 t place queue hpop chances hdead ih =>
    exact ih.trans ((Nat.le_succ _).trans_eq (Queue.length_of_pop? hpop).symm)
  | case3 t place queue hpop value admission chances hentry ih =>
    rw [Queue.length_of_pop? hpop, ← Queue.length_push queue place]
    exact ih
  | case4 chances t place queue hpop =>
    exact (Nat.le_succ _).trans_eq (Queue.length_of_pop? hpop).symm

/-- Sweeps as long as the table is full and a sweep finds an entry to drop, but at most so many
times. Gives the key that was dropped last. -/
def sweepWhileFull : Nat → Option κ → Table κ ν → Option κ × Table κ ν
  | 0, dropped, t => (dropped, t)
  | turns + 1, dropped, t =>
    if t.size < t.capacity then (dropped, t)
    else
      match t.sweep secondChances with
      | (some key, t) => sweepWhileFull turns (some key) t
      | (none, t) => (dropped, t)

theorem sweepWhileFull_of_room (h : t.size < t.capacity) (turns : Nat) (dropped : Option κ) :
    t.sweepWhileFull turns dropped = (dropped, t) := by
  cases turns with
  | zero => rfl
  | succ turns => exact if_pos h

theorem length_makeRoom_le (t : Table κ ν) : t.makeRoom.2.queue.length ≤ t.queue.length := by
  unfold makeRoom
  split
  · exact le_rfl
  · exact length_sweep_le _ _

variable [LawfulBEq κ]

/-- A sweep finds an entry to drop unless there is none. -/
theorem isSome_sweep (hv : t.Valid) (chances : Nat) :
    (t.sweep chances).1.isSome ↔ t.size ≠ 0 := by
  rw [congrArg Prod.fst (sweep_eq chances hv).2, isSome_sweepItems, ← length_items hv, ne_eq,
    ne_eq, List.length_eq_zero_iff]

/-- A sweep drops one entry, if there is any. -/
theorem size_sweep (hv : t.Valid) (chances : Nat) :
    (t.sweep chances).2.size + (t.sweep chances).1.toList.length = t.size := by
  obtain ⟨hvalid, hsweep⟩ := sweep_eq chances hv
  have hlength := length_sweepItems chances t.items
  rw [← hsweep] at hlength
  rw [← length_items hvalid, ← length_items hv, hlength]

/-- The key that a sweep gives was present. -/
theorem isSome_of_sweep (hv : t.Valid) (h : (t.sweep chances).1 = some k) :
    (t.peek? k).isSome := by
  rw [congrArg Prod.fst (sweep_eq chances hv).2] at h
  obtain ⟨item, hitem, rfl⟩ := mem_of_sweepItems h
  rw [peek?, lookup_of_mem_items hitem]
  rfl

theorem isSome_of_makeRoom (hv : t.Valid) (h : t.makeRoom.1 = some k) : (t.peek? k).isSome := by
  unfold makeRoom at h
  split at h
  · cases h
  · exact isSome_of_sweep hv h

theorem size_makeRoom (hv : t.Valid) :
    t.makeRoom.2.size + t.makeRoom.1.toList.length = t.size := by
  unfold makeRoom
  split
  · rfl
  · exact size_sweep hv _

/-! ### Sizes -/

theorem size_append (h : t.peek? key = none) (value : ν) :
    (t.append key value).size = t.size + 1 := by
  have habsent : key ∉ t.entries := by
    rw [Std.HashMap.mem_iff_isSome_getElem?, Option.map_eq_none_iff.1 h]
    simp
  rw [size, entries_append, Std.HashMap.size_insert, if_neg habsent, size]

theorem size_remove (t : Table κ ν) (key : κ) :
    (t.remove key).2.size + (t.remove key).1.toList.length = t.size := by
  unfold remove
  split
  · next entry hentry =>
    have hmem : key ∈ t.entries := Std.HashMap.mem_iff_isSome_getElem?.2 (hentry ▸ rfl)
    have hpos : t.entries.size ≠ 0 := by
      intro hzero
      have habsent := peek?_of_empty (t := t) hzero key
      rw [peek?, hentry] at habsent
      cases habsent
    simp only [size, Std.HashMap.size_erase, if_pos hmem, Option.toList_some,
      List.length_singleton]
    omega
  · rfl

/-- Overwriting a present key lets nothing in and drops nothing. -/
theorem size_insert_of_present (h : (t.peek? key).isSome) (value : ν) :
    (t.insert key value).2.size = t.size ∧ (t.insert key value).1 = none := by
  obtain ⟨entry, hentry⟩ := Option.isSome_iff_exists.1 (Option.isSome_map.symm.trans h)
  have hmem : key ∈ t.entries := Std.HashMap.mem_iff_isSome_getElem?.2 (hentry ▸ rfl)
  rw [insert_of_present hentry]
  refine ⟨?_, rfl⟩
  rw [size, Std.HashMap.size_insert, if_pos hmem, size]

/-- A new key comes in, and one entry may be dropped for it. -/
theorem size_insert_of_absent (hv : t.Valid) (h : t.peek? key = none) (value : ν) :
    (t.insert key value).2.size + (t.insert key value).1.toList.length = t.size + 1 := by
  have hroom := size_makeRoom hv
  rw [insert_of_absent h]
  simp only [size_append (peek?_makeRoom_of_absent h)]
  omega

/-! ### Limits -/

/-- A valid table within its limits. -/
structure Bounded (t : Table κ ν) : Prop extends t.Valid where
  size_le : t.size ≤ t.capacity
  length_le : t.queue.length ≤ 2 * t.capacity

omit [LawfulBEq κ] in
theorem bounded_new (capacity : Nat) : (new capacity : Table κ ν).Bounded where
  toValid := valid_new capacity
  size_le := Nat.zero_le _
  length_le := Nat.zero_le _

/-- A table whose places all stand for entries has one place for each. -/
theorem length_queue_of_live (hv : t.Valid)
    (h : ∀ place ∈ t.queue.toList, (t.entryAt? place).isSome) : t.queue.length = t.size := by
  have hall : t.queue.toList.countP (fun place => ((t.entryAt? place).map (place.1, ·)).isSome) =
      t.queue.toList.length :=
    List.countP_eq_length.2 fun place hplace => by simpa using h place hplace
  rw [← length_items hv, items, List.length_filterMap_eq_countP, hall, Queue.length_toList]

/-- A compacted queue has one place for each entry. -/
theorem length_queue_compact (hv : t.compact.Valid) : t.compact.queue.length = t.compact.size := by
  refine length_queue_of_live hv fun place hplace => ?_
  rw [compact, Queue.toList_filter] at hplace
  exact (List.mem_filter.1 hplace).2

namespace Bounded

theorem get (hb : t.Bounded) (key : κ) : (t.get key).2.Bounded where
  toValid := valid_get hb.toValid key
  size_le := by simpa [size_get] using hb.size_le
  length_le := by simpa using hb.length_le

theorem remove (hb : t.Bounded) (key : κ) : (t.remove key).2.Bounded where
  toValid := valid_remove hb.toValid key
  size_le := by simpa using (size_remove_le t key).trans hb.size_le
  length_le := by simpa using hb.length_le

theorem makeRoom (hb : t.Bounded) : t.makeRoom.2.Bounded where
  toValid := valid_makeRoom hb.toValid
  size_le := by
    rw [(swept_makeRoom t).capacity_eq]
    exact (Nat.le.intro (size_makeRoom hb.toValid)).trans hb.size_le
  length_le := by
    rw [(swept_makeRoom t).capacity_eq]
    exact (length_makeRoom_le t).trans hb.length_le

/-- A full table drops an entry to make room. -/
theorem isSome_makeRoom_iff (hb : t.Bounded) : t.makeRoom.1.isSome ↔ t.size = t.capacity := by
  have hsize := hb.size_le
  have hpos := hb.capacity_pos
  rw [Table.makeRoom]
  split
  · next hroom => simpa using hroom.ne
  · next hfull => rw [isSome_sweep hb.toValid]; omega

/-- After making room there is some. -/
theorem size_makeRoom_lt (hb : t.Bounded) : t.makeRoom.2.size < t.makeRoom.2.capacity := by
  have hsize := size_makeRoom hb.toValid
  have hle := hb.size_le
  rw [(swept_makeRoom t).capacity_eq]
  by_cases hfull : t.size = t.capacity
  · obtain ⟨k, hk⟩ := Option.isSome_iff_exists.1 (hb.isSome_makeRoom_iff.2 hfull)
    rw [hk, Option.toList_some, List.length_singleton] at hsize
    omega
  · omega

/-- Sweeping as long as a table is full is sweeping once, in however many turns. -/
theorem sweepWhileFull_eq_makeRoom (hb : t.Bounded) (turns : Nat) :
    t.sweepWhileFull (turns + 1) none = t.makeRoom := by
  have hroom := hb.size_makeRoom_lt
  rw [sweepWhileFull]
  rw [Table.makeRoom] at hroom ⊢
  split
  · rfl
  · next hfull =>
    rw [if_neg hfull] at hroom
    split
    · next key t' hsweep =>
      -- the first sweep makes room, so the second turn stops
      rw [hsweep] at hroom ⊢
      exact sweepWhileFull_of_room hroom turns (some key)
    · next t' hsweep => exact hsweep.symm

theorem append (hb : t.Bounded) (habsent : t.peek? key = none) (hroom : t.size < t.capacity)
    (value : ν) : (t.append key value).Bounded where
  toValid := valid_append hb.toValid key value
  size_le := by
    rw [size_append habsent, capacity_append]
    exact hroom
  length_le := by
    have hsize := size_append habsent value
    have hvalid := valid_append hb.toValid key value
    rw [capacity_append]
    unfold Table.append at hsize hvalid ⊢
    simp only at hsize hvalid ⊢
    split at hsize
    · next hlong =>
      rw [if_pos hlong] at hvalid ⊢
      rw [length_queue_compact hvalid, hsize]
      omega
    · next hshort =>
      rw [if_neg hshort]
      exact Nat.le_of_not_lt hshort

theorem insert (hb : t.Bounded) (key : κ) (value : ν) : (t.insert key value).2.Bounded := by
  cases hentry : t.entries[key]? with
  | some entry =>
    have hpresent : (t.peek? key).isSome := by simp [peek?, hentry]
    refine ⟨valid_insert hb.toValid key value, ?_, ?_⟩
    · rw [(size_insert_of_present hpresent value).1, capacity_insert]
      exact hb.size_le
    · rw [insert_of_present hentry]
      exact hb.length_le
  | none =>
    have habsent : t.peek? key = none := by simp [peek?, hentry]
    rw [insert_of_absent habsent]
    exact hb.makeRoom.append (peek?_makeRoom_of_absent habsent) hb.size_makeRoom_lt value

theorem perform (hb : t.Bounded) (request : Request κ ν) : (t.perform request).2.Bounded := by
  cases request with
  | insert key value => exact hb.insert key value
  | get key => exact hb.get key
  | peek key => exact hb
  | contains key => exact hb.get key
  | remove key => exact hb.remove key

/-- A key has to make room exactly when a new one comes to a full table. -/
theorem isSome_insert_iff (hb : t.Bounded) (key : κ) (value : ν) :
    (t.insert key value).1.isSome ↔ t.peek? key = none ∧ t.size = t.capacity := by
  cases hentry : t.entries[key]? with
  | some entry =>
    have hpresent : t.peek? key ≠ none := by simp [peek?, hentry]
    simp [insert_of_present hentry, hpresent]
  | none =>
    have habsent : t.peek? key = none := by simp [peek?, hentry]
    rw [insert_of_absent habsent, hb.isSome_makeRoom_iff]
    simp [habsent]

end Bounded

/-- The key that has to make room is the only one that is lost. -/
theorem fst_insert_eq_some_iff (hv : t.Valid) (key : κ) (value : ν) :
    (t.insert key value).1 = some k ↔
      (t.peek? k).isSome ∧ (t.insert key value).2.peek? k = none := by
  constructor
  · intro hevicts
    have habsent : t.peek? key = none := by
      by_contra hpresent
      rw [(size_insert_of_present (Option.isSome_iff_ne_none.2 hpresent) value).2] at hevicts
      cases hevicts
    have hpresent : (t.peek? k).isSome := by
      rw [insert_of_absent habsent] at hevicts
      exact isSome_of_makeRoom hv hevicts
    have hne : key ≠ k := by
      rintro rfl
      rw [habsent] at hpresent
      cases hpresent
    exact ⟨hpresent, peek?_of_insert_evicts hne hevicts⟩
  · rintro ⟨hpresent, hlost⟩
    by_contra hkept
    by_cases hk : key = k
    · subst hk
      rw [peek?_insert_self] at hlost
      cases hlost
    · rw [peek?_insert_of_ne hk hkept] at hlost
      rw [hlost] at hpresent
      cases hpresent

/-! ### Runs -/

/-- A table after one request. -/
def next (t : Table κ ν) (request : Request κ ν) : Table κ ν := (t.perform request).2

/-- A table after some requests. -/
def after (t : Table κ ν) (requests : List (Request κ ν)) : Table κ ν := requests.foldl next t

/-- A table and the list of its entries stay in step. -/
theorem live_after (hv : t.Valid) (requests : List (Request κ ν)) :
    (t.after requests).Valid ∧
      (t.after requests).live = requests.foldl (fun q request => (q.perform request).2) t.live := by
  induction requests generalizing t with
  | nil => exact ⟨hv, rfl⟩
  | cons request requests ih =>
    obtain ⟨hvalid, hperform⟩ := live_perform hv request
    obtain ⟨hvalid', hlive⟩ := ih hvalid
    refine ⟨hvalid', hlive.trans ?_⟩
    rw [List.foldl_cons, ← hperform]

/-- The number of keys that a request lets in. -/
def letsIn (t : Table κ ν) : Request κ ν → Nat
  | .insert key _ => if (t.peek? key).isNone then 1 else 0
  | _ => 0

/-- The number of entries that a request takes out. -/
def takesOut (t : Table κ ν) : Request κ ν → Nat
  | .remove key => if (t.peek? key).isSome then 1 else 0
  | _ => 0

theorem Bounded.after (hb : t.Bounded) (requests : List (Request κ ν)) :
    (t.after requests).Bounded := by
  induction requests generalizing t with
  | nil => exact hb
  | cons request requests ih => exact ih (hb.perform request)

theorem capacity_perform (t : Table κ ν) (request : Request κ ν) :
    (t.perform request).2.capacity = t.capacity := by
  cases request with
  | insert key value => exact capacity_insert t key value
  | get key => exact capacity_get t key
  | peek key => rfl
  | contains key => exact capacity_get t key
  | remove key => exact capacity_remove t key

theorem capacity_after (t : Table κ ν) (requests : List (Request κ ν)) :
    (t.after requests).capacity = t.capacity := by
  induction requests generalizing t with
  | nil => rfl
  | cons request requests ih => exact (ih _).trans (capacity_perform t request)

/-- What a request lets in is held or was dropped for it, and what it takes out is gone. -/
theorem balance_perform (hb : t.Bounded) (request : Request κ ν) :
    (t.perform request).2.size + (t.perform request).2.evictions + t.takesOut request =
      t.size + t.evictions + t.letsIn request := by
  cases request with
  | insert key value =>
    have hevictions := evictions_insert t key value
    simp only [perform, takesOut, letsIn, Prod.map_snd, id]
    cases hentry : t.peek? key with
    | none =>
      have hsize := size_insert_of_absent hb.toValid hentry value
      simp only [Option.isNone_none, if_true]
      omega
    | some v =>
      have hpresent : (t.peek? key).isSome := by simp [hentry]
      obtain ⟨hsize, hkept⟩ := size_insert_of_present hpresent value
      rw [hkept] at hevictions
      simp_all
  | get key => simp [perform, takesOut, letsIn, size_get]
  | peek key => rfl
  | contains key => simp [perform, takesOut, letsIn, size_get]
  | remove key =>
    have hsize := size_remove t key
    rw [fst_remove] at hsize
    simp only [perform, takesOut, letsIn, Prod.map_snd, id, evictions_remove]
    cases hentry : t.peek? key with
    | none => simp_all
    | some v =>
      simp only [hentry, Option.toList_some, List.length_singleton, Option.isSome_some,
        if_true] at hsize ⊢
      omega

/-- Every key that was let in is held, was dropped to make room, or was taken out. -/
theorem total_letsIn (capacity : Nat) (requests : List (Request κ ν)) :
    Run.total next letsIn (new capacity) requests =
      ((new capacity : Table κ ν).after requests).size +
        ((new capacity : Table κ ν).after requests).evictions +
        Run.total next takesOut (new capacity) requests := by
  have hbalance := Run.balance (fun t : Table κ ν => t.size + t.evictions) (fun _ => 0) letsIn
    takesOut Bounded (fun t request hb => hb.perform request)
    (fun t request hb => balance_perform hb request) (bounded_new capacity) requests
  have hsize : (new capacity : Table κ ν).size = 0 := rfl
  have hevictions : (new capacity : Table κ ν).evictions = 0 := rfl
  simp only [hsize, hevictions, Nat.zero_add, Nat.add_zero] at hbalance
  exact hbalance.symm

/-- The place of an entry stands in the queue once. -/
theorem count_queue (hv : t.Valid) {entry : Entry ν} (hentry : t.entries[key]? = some entry) :
    t.queue.toList.count (key, entry.admission) = 1 := by
  have hdistinct : t.queue.toList.Nodup :=
    hv.distinct.imp fun hne hsame => hne (congrArg Prod.snd hsame)
  exact List.count_eq_one_of_mem hdistinct (hv.queued key entry hentry)

/-- What holds of a table that was made with some capacity, let some new keys in, and had some
entries taken out. -/
structure Accounted (capacity letIn takenOut : Nat) (t : Table κ ν) : Prop where
  size_le : t.size ≤ max 1 capacity
  length_le : t.queue.length ≤ 2 * max 1 capacity
  /-- Each entry has one place in the queue. -/
  one_place : ∀ key entry, t.entries[key]? = some entry →
    t.queue.toList.count (key, entry.admission) = 1
  /-- No two places carry the same admission. -/
  distinct : (t.queue.toList.map (·.2)).Nodup
  admission_le : ∀ place ∈ t.queue.toList, place.2 ≤ t.clock
  /-- A key has to make room exactly when a new one comes to a full table. -/
  isSome_insert : ∀ key value,
    (t.insert key value).1.isSome ↔ t.peek? key = none ∧ t.size = max 1 capacity
  /-- The key that has to make room is the only one that is lost. -/
  insert_eq_some : ∀ key value k,
    (t.insert key value).1 = some k ↔
      (t.peek? k).isSome ∧ (t.insert key value).2.peek? k = none
  insert_ne : ∀ key value, (t.insert key value).1 ≠ some key
  /-- A sweep finds an entry to drop unless there is none. -/
  sweep_finds : ∀ chances, t.size ≠ 0 → (t.sweep chances).1.isSome
  /-- Every key that was let in is held, was dropped, or was taken out. -/
  letIn_eq : letIn = t.size + t.evictions + takenOut

/-- **A table keeps its limits and its accounts.** Whatever is asked of a new table, one request
after another: it holds no more entries than its capacity, and no more than twice as many places in
its queue, one of them for each entry; a key has to make room exactly when a new one comes to a full
table, and then one entry is dropped and nothing else is lost; and of the keys that were let in,
those not held were dropped or taken out. -/
theorem accounted_after (capacity : Nat) (requests : List (Request κ ν)) :
    ((new capacity : Table κ ν).after requests).Accounted capacity
      (Run.total next letsIn (new capacity) requests)
      (Run.total next takesOut (new capacity) requests) := by
  have hb := (bounded_new (κ := κ) (ν := ν) capacity).after requests
  have hcapacity : ((new capacity : Table κ ν).after requests).capacity = max 1 capacity := by
    rw [capacity_after, new, Nat.max_comm]
  set t := (new capacity : Table κ ν).after requests
  refine
    { size_le := hcapacity ▸ hb.size_le
      length_le := hcapacity ▸ hb.length_le
      one_place := fun key entry hentry => count_queue hb.toValid hentry
      distinct := List.pairwise_map.2 hb.distinct
      admission_le := hb.admission_le
      isSome_insert := hcapacity ▸ hb.isSome_insert_iff
      insert_eq_some := fun key value k => fst_insert_eq_some_iff hb.toValid key value
      insert_ne := fun key value hsame => ?_
      sweep_finds := fun chances => (isSome_sweep hb.toValid chances).2
      letIn_eq := total_letsIn capacity requests }
  rw [fst_insert_eq_some_iff hb.toValid, peek?_insert_self] at hsame
  cases hsame.2

/-- A table for one entry is full once a key was let in, and the next one drops it, though it was
used. -/
theorem accounted_after_used :
    ((new 1 : Table Nat Nat).after [.insert 1 10, .get 1]).size = 1 ∧
      ((new 1 : Table Nat Nat).after [.insert 1 10, .get 1]).evictions = 0 ∧
      (((new 1 : Table Nat Nat).after [.insert 1 10, .get 1]).insert 2 20).1 = some 1 := by
  have h := accounted_after 1 [(.insert 1 10 : Request Nat Nat), .get 1]
  have hletIn : Run.total next letsIn (new 1) [(.insert 1 10 : Request Nat Nat), .get 1] = 1 := by
    simp [Run.total, letsIn]
  have hpeek : ∀ k, ((new 1 : Table Nat Nat).after [.insert 1 10, .get 1]).peek? k =
      if 1 = k then some 10 else none := by
    intro k
    have hroom : ((new 1 : Table Nat Nat).insert 1 10).1 = none :=
      (insert_of_room (by decide) 1 10).1
    show (((new 1 : Table Nat Nat).insert 1 10).2.get 1).2.peek? k = _
    rw [peek?_get]
    split
    · next hk =>
      subst hk
      exact peek?_insert_self _ _ _
    · next hk => rw [peek?_insert_of_ne hk (by simp [hroom]), peek?_new]
  set t := (new 1 : Table Nat Nat).after [.insert 1 10, .get 1]
  have hfull : t.size = 1 := by
    have hle := h.size_le
    have hne : t.size ≠ 0 := by
      intro hzero
      have hnone := (hpeek 1).symm.trans (peek?_of_empty hzero 1)
      cases hnone
    omega
  have hsum := h.letIn_eq
  rw [hletIn, hfull] at hsum
  refine ⟨hfull, by omega, ?_⟩
  -- some key has to make room, and only one is there
  obtain ⟨k, hk⟩ := Option.isSome_iff_exists.1 ((h.isSome_insert 2 20).2 ⟨hpeek 2, hfull⟩)
  have hpresent := ((h.insert_eq_some 2 20 k).1 hk).1
  rw [hpeek] at hpresent
  split at hpresent
  · next hone => rw [hk, hone]
  · cases hpresent

end Table

end FsTrace
