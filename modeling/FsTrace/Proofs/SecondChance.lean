import FsTrace.Proofs.TableContents

/-!
# The order of a table

The queue of a table holds one place for each entry, and places that removed entries left behind.
`Table.items` lists the entries in the order of the queue, without what was left behind; every
operation is described by what it does to that list.

* `Valid`: each entry has a place, and no two places carry the same admission. A new table is valid
  (`valid_new`), and every operation keeps a table valid;
* `items`, with `mem_items`, `keys_distinct` and `length_items`;
* `sweepItems`, the sweep on lists, and `sweep_eq`: the sweep of a table is that of its list;
* `items_get`, `items_remove`, `items_append`, `makeRoom_of_full`;
* `fst_insert_of_few`: a table with room for all keys that come to it drops none.
-/

namespace FsTrace

namespace Table

variable {κ ν : Type} [BEq κ] [Hashable κ]

/-- The entries in the order of the queue, each with its key. -/
def items (t : Table κ ν) : List (κ × Entry ν) :=
  t.queue.toList.filterMap fun place => (t.entryAt? place).map (place.1, ·)

/-- Each entry has one place in the queue, which alone carries its admission. -/
structure Valid (t : Table κ ν) : Prop where
  capacity_pos : 0 < t.capacity
  admission_le : ∀ place ∈ t.queue.toList, place.2 ≤ t.clock
  distinct : t.queue.toList.Pairwise (·.2 ≠ ·.2)
  queued : ∀ key entry, t.entries[key]? = some entry → (key, entry.admission) ∈ t.queue.toList

theorem valid_new (capacity : Nat) : (new capacity : Table κ ν).Valid where
  capacity_pos := by simp [new]
  admission_le := by simp [new]
  distinct := by simp [new]
  queued := by simp [new]

@[simp] theorem items_new (capacity : Nat) : (new capacity : Table κ ν).items = [] := by
  simp [items, new]

/-- The sweep of a list: at most `chances` used items go from the front to the end, unmarked, and
the next one is dropped. -/
def sweepItems : Nat → List (κ × Entry ν) → Option κ × List (κ × Entry ν)
  | _, [] => (none, [])
  | chances + 1, (key, ⟨value, admission, true⟩) :: rest =>
    sweepItems chances (rest ++ [(key, ⟨value, admission, false⟩)])
  | _, (key, _) :: rest => (some key, rest)

omit [BEq κ] [Hashable κ] in
/-- Where the front was not used, the sweep is first in, first out. -/
theorem sweepItems_of_unused (chances : Nat) (item : κ × Entry ν) (h : item.2.used = false)
    (rest : List (κ × Entry ν)) :
    sweepItems chances (item :: rest) = (some item.1, rest) := by
  obtain ⟨key, value, admission, used⟩ := item
  subst h
  cases chances <;> rfl

variable {t : Table κ ν}

/-! ### The list and the entries -/

theorem lookup_of_mem_items {item : κ × Entry ν} (h : item ∈ t.items) :
    t.entries[item.1]? = some item.2 := by
  obtain ⟨place, -, hplace⟩ := List.mem_filterMap.1 h
  obtain ⟨entry, hentry, rfl⟩ := Option.map_eq_some_iff.1 hplace
  exact (entryAt?_eq_some_iff.1 hentry).1

theorem mem_items (hv : t.Valid) {key : κ} {entry : Entry ν} :
    (key, entry) ∈ t.items ↔ t.entries[key]? = some entry := by
  refine ⟨lookup_of_mem_items, fun hentry =>
    List.mem_filterMap.2 ⟨_, hv.queued key entry hentry, ?_⟩⟩
  rw [entryAt?_eq_some_iff.2 ⟨hentry, rfl⟩, Option.map_some]

/-- No key is listed twice. -/
theorem keys_distinct (hv : t.Valid) : t.items.Pairwise (·.1 ≠ ·.1) := by
  rw [items, List.pairwise_filterMap]
  refine hv.distinct.imp ?_
  intro place other hne item hitem item' hitem' hkeys
  obtain ⟨entry, hentry, rfl⟩ := Option.map_eq_some_iff.1 hitem
  obtain ⟨entry', hentry', rfl⟩ := Option.map_eq_some_iff.1 hitem'
  obtain ⟨hlookup, hadmission⟩ := entryAt?_eq_some_iff.1 hentry
  obtain ⟨hlookup', hadmission'⟩ := entryAt?_eq_some_iff.1 hentry'
  -- both places stand for the one entry of their key
  have hsame : entry = entry' := by
    rw [show place.1 = other.1 from hkeys, hlookup'] at hlookup
    exact (Option.some.inj hlookup).symm
  exact hne (hadmission.symm.trans (hsame ▸ hadmission'))

variable [LawfulBEq κ]

theorem length_items (hv : t.Valid) : t.items.length = t.size := by
  have hkeys : (t.items.map (·.1)).Perm t.entries.keys := by
    rw [List.perm_ext_iff_of_nodup (List.pairwise_map.2 (keys_distinct hv))
      Std.HashMap.nodup_keys]
    intro key
    rw [Std.HashMap.mem_keys, Std.HashMap.mem_iff_isSome_getElem?, Option.isSome_iff_exists]
    simp [mem_items hv]
  rw [← List.length_map (·.1), hkeys.length_eq, Std.HashMap.length_keys, size]

omit [LawfulBEq κ] in
theorem peek?_eq_none_iff (hv : t.Valid) {key : κ} :
    t.peek? key = none ↔ ∀ item ∈ t.items, item.1 ≠ key := by
  rw [peek?, Option.map_eq_none_iff]
  constructor
  · rintro habsent ⟨k, entry⟩ hitem rfl
    rw [mem_items hv] at hitem
    simp_all
  · intro hkeys
    by_contra hpresent
    obtain ⟨entry, hentry⟩ := Option.ne_none_iff_exists'.1 hpresent
    exact hkeys (key, entry) ((mem_items hv).2 hentry) rfl

omit [LawfulBEq κ] in
/-- No more entries are listed than there are keys that they may have. -/
theorem length_items_le (hv : t.Valid) {keys : Finset κ} (hkeys : ∀ item ∈ t.items, item.1 ∈ keys) :
    t.items.length ≤ keys.card := by
  classical
  have hnodup : (t.items.map (·.1)).Nodup := List.pairwise_map.2 (keys_distinct hv)
  have hsubset : (t.items.map (·.1)).toFinset ⊆ keys := by
    intro key hkey
    obtain ⟨item, hitem, rfl⟩ := List.mem_map.1 (List.mem_toFinset.1 hkey)
    exact hkeys item hitem
  calc t.items.length
      = (t.items.map (·.1)).toFinset.card := by
        rw [List.toFinset_card_of_nodup hnodup, List.length_map]
    _ ≤ keys.card := Finset.card_le_card hsubset

/-! ### Changing and removing entries -/

/-- A present entry can be changed in place, as long as it keeps its admission. -/
theorem valid_update (hv : t.Valid) {key : κ} {entry : Entry ν}
    (hentry : t.entries[key]? = some entry) (entry' : Entry ν)
    (hadmission : entry'.admission = entry.admission) :
    ({ t with entries := t.entries.insert key entry' } : Table κ ν).Valid where
  capacity_pos := hv.capacity_pos
  admission_le := hv.admission_le
  distinct := hv.distinct
  queued k e he := by
    rw [Std.HashMap.getElem?_insert] at he
    split at he
    · next hk =>
      obtain rfl := eq_of_beq hk
      obtain rfl := Option.some.inj he
      exact hadmission ▸ hv.queued _ _ hentry
    · exact hv.queued k e he

theorem items_update {key : κ} {entry : Entry ν}
    (hentry : t.entries[key]? = some entry) (entry' : Entry ν)
    (hadmission : entry'.admission = entry.admission) :
    ({ t with entries := t.entries.insert key entry' } : Table κ ν).items =
      t.items.map fun item => if item.1 == key then (item.1, entry') else item := by
  simp only [items, List.map_filterMap]
  refine List.filterMap_congr fun place _ => ?_
  simp only [entryAt?, Std.HashMap.getElem?_insert]
  by_cases hk : key = place.1
  · subst hk
    by_cases ha : entry.admission = place.2 <;> simp [hentry, hadmission, ha, Option.filter]
  · cases h : t.entries[place.1]? with
    | none => simp [hk]
    | some e => by_cases ha : e.admission = place.2 <;> simp [hk, Ne.symm hk, ha, Option.filter]

theorem valid_erase (hv : t.Valid) (key : κ) :
    ({ t with entries := t.entries.erase key } : Table κ ν).Valid where
  capacity_pos := hv.capacity_pos
  admission_le := hv.admission_le
  distinct := hv.distinct
  queued k e he := by
    rw [Std.HashMap.getElem?_erase] at he
    split at he
    · cases he
    · exact hv.queued k e he

theorem items_erase (key : κ) :
    ({ t with entries := t.entries.erase key } : Table κ ν).items =
      t.items.filter (·.1 != key) := by
  simp only [items, List.filter_filterMap]
  refine List.filterMap_congr fun place _ => ?_
  simp only [entryAt?, Std.HashMap.getElem?_erase]
  by_cases hk : key = place.1
  · subst hk
    cases t.entries[place.1]? with
    | none => simp
    | some e => by_cases ha : e.admission = place.2 <;> simp [ha, Option.filter]
  · cases h : t.entries[place.1]? with
    | none => simp [hk]
    | some e => by_cases ha : e.admission = place.2 <;> simp [hk, Ne.symm hk, ha, Option.filter]

/-! ### Sweeps -/

omit [LawfulBEq κ] in
theorem items_of_pop? {place : κ × Nat} {queue : Queue (κ × Nat)}
    (h : t.queue.pop? = some (place, queue)) :
    t.items = ((t.entryAt? place).map (place.1, ·)).toList ++ { t with queue }.items := by
  rw [items, Queue.toList_of_pop? h, List.filterMap_cons]
  cases t.entryAt? place <;> rfl

omit [LawfulBEq κ] in
/-- Without its first place, a queue still has the place of every other entry. -/
theorem queued_of_pop? (hv : t.Valid) {place : κ × Nat} {queue : Queue (κ × Nat)}
    (h : t.queue.pop? = some (place, queue)) {key : κ} {entry : Entry ν}
    (hentry : t.entries[key]? = some entry) :
    (key, entry.admission) = place ∨ (key, entry.admission) ∈ queue.toList := by
  have := hv.queued key entry hentry
  rwa [Queue.toList_of_pop? h, List.mem_cons] at this

omit [LawfulBEq κ] in
/-- The entry of the first place is listed nowhere behind it. -/
theorem keys_of_pop? (hv : t.Valid) {place : κ × Nat} {queue : Queue (κ × Nat)}
    (h : t.queue.pop? = some (place, queue)) {entry : Entry ν}
    (hentry : t.entryAt? place = some entry) :
    ∀ item ∈ ({ t with queue } : Table κ ν).items, item.1 ≠ place.1 := by
  have hdistinct := keys_distinct hv
  rw [items_of_pop? h, hentry] at hdistinct
  exact fun item hitem => ((List.pairwise_cons.1 hdistinct).1 item hitem).symm

omit [LawfulBEq κ] in
theorem valid_of_pop?_dead (hv : t.Valid) {place : κ × Nat} {queue : Queue (κ × Nat)}
    (h : t.queue.pop? = some (place, queue)) (hdead : t.entryAt? place = none) :
    ({ t with queue } : Table κ ν).Valid where
  capacity_pos := hv.capacity_pos
  admission_le p hp := hv.admission_le p (Queue.toList_of_pop? h ▸ List.mem_cons_of_mem _ hp)
  distinct := (List.pairwise_cons.1 (Queue.toList_of_pop? h ▸ hv.distinct)).2
  queued key entry hentry := by
    refine (queued_of_pop? hv h hentry).resolve_left fun hplace => ?_
    subst hplace
    rw [entryAt?_eq_some_iff.2 ⟨hentry, rfl⟩] at hdead
    cases hdead

theorem valid_requeue (hv : t.Valid) {place : κ × Nat} {queue : Queue (κ × Nat)}
    (h : t.queue.pop? = some (place, queue)) {value : ν} {admission : Nat} {used : Bool}
    (hentry : t.entryAt? place = some ⟨value, admission, used⟩) :
    ({ t with
        queue := queue.push place
        entries := t.entries.insert place.1 ⟨value, admission, false⟩ } : Table κ ν).Valid := by
  obtain ⟨hlookup, hadmission⟩ := entryAt?_eq_some_iff.1 hentry
  have hperm : (place :: queue.toList).Perm (queue.push place).toList := by
    rw [Queue.toList_push]
    exact (List.perm_append_singleton _ _).symm
  have hv' := valid_update hv hlookup ⟨value, admission, false⟩ rfl
  refine ⟨hv.capacity_pos, fun p hp => ?_, ?_, fun key entry hkey => ?_⟩
  · exact hv.admission_le p (Queue.toList_of_pop? h ▸ hperm.mem_iff.2 hp)
  · have := Queue.toList_of_pop? h ▸ hv.distinct
    exact this.perm hperm fun hne => Ne.symm hne
  · exact hperm.mem_iff.1 (Queue.toList_of_pop? h ▸ hv'.queued key entry hkey)

theorem items_requeue (hv : t.Valid) {place : κ × Nat} {queue : Queue (κ × Nat)}
    (h : t.queue.pop? = some (place, queue)) {value : ν} {admission : Nat} {used : Bool}
    (hentry : t.entryAt? place = some ⟨value, admission, used⟩) :
    ({ t with
        queue := queue.push place
        entries := t.entries.insert place.1 ⟨value, admission, false⟩ } : Table κ ν).items =
      { t with queue }.items ++ [(place.1, ⟨value, admission, false⟩)] := by
  obtain ⟨hlookup, hadmission⟩ := entryAt?_eq_some_iff.1 hentry
  have hrest := items_update (t := { t with queue }) hlookup ⟨value, admission, false⟩ rfl
  -- no other place stands for the entry that loses its mark
  have hsame : ({ t with queue } : Table κ ν).items.map (fun item =>
      if item.1 == place.1 then (item.1, ⟨value, admission, false⟩) else item) =
      ({ t with queue } : Table κ ν).items := by
    refine (List.map_congr_left fun item hitem => ?_).trans (List.map_id _)
    rw [if_neg (by simpa using keys_of_pop? hv h hentry item hitem), id]
  rw [← hrest.trans hsame]
  simp [items, entryAt?, show admission = place.2 from hadmission, Option.filter]

theorem valid_drop (hv : t.Valid) {place : κ × Nat} {queue : Queue (κ × Nat)}
    (h : t.queue.pop? = some (place, queue)) (evictions : Nat) :
    ({ t with queue, entries := t.entries.erase place.1, evictions } : Table κ ν).Valid where
  capacity_pos := hv.capacity_pos
  admission_le p hp := hv.admission_le p (Queue.toList_of_pop? h ▸ List.mem_cons_of_mem _ hp)
  distinct := (List.pairwise_cons.1 (Queue.toList_of_pop? h ▸ hv.distinct)).2
  queued key entry hentry := by
    rw [Std.HashMap.getElem?_erase] at hentry
    split at hentry
    · cases hentry
    · next hne =>
      refine (queued_of_pop? hv h hentry).resolve_left fun hplace => hne ?_
      simp [← hplace]

theorem items_drop (hv : t.Valid) {place : κ × Nat} {queue : Queue (κ × Nat)}
    (h : t.queue.pop? = some (place, queue)) {entry : Entry ν}
    (hentry : t.entryAt? place = some entry) (evictions : Nat) :
    ({ t with queue, entries := t.entries.erase place.1, evictions } : Table κ ν).items =
      { t with queue }.items := by
  have herase := items_erase (t := { t with queue }) place.1
  rw [List.filter_eq_self.2 fun item hitem => by
    simpa using keys_of_pop? hv h hentry item hitem] at herase
  exact herase

/-- The sweep of a table is the sweep of its list. -/
theorem sweep_eq (chances : Nat) (hv : t.Valid) :
    (t.sweep chances).2.Valid ∧
      ((t.sweep chances).1, (t.sweep chances).2.items) = sweepItems chances t.items := by
  fun_induction sweep chances t with
  | case1 chances t hempty =>
    have hnil : t.items = [] := by
      rw [items, Queue.pop?_eq_none_iff.1 hempty, List.filterMap_nil]
    refine ⟨hv, ?_⟩
    rw [hnil]
    cases chances <;> rfl
  | case2 t place queue hpop chances hdead ih =>
    obtain ⟨hvalid, hsweep⟩ := ih (valid_of_pop?_dead hv hpop hdead)
    refine ⟨hvalid, hsweep.trans ?_⟩
    rw [items_of_pop? hpop, hdead]
    rfl
  | case3 t place queue hpop value admission chances hentry ih =>
    obtain ⟨hvalid, hsweep⟩ := ih (valid_requeue hv hpop hentry)
    refine ⟨hvalid, hsweep.trans ?_⟩
    rw [items_requeue hv hpop hentry, items_of_pop? hpop, hentry]
    rfl
  | case4 chances t place queue hpop entry hentry hlast =>
    refine ⟨valid_drop hv hpop _, ?_⟩
    rw [items_drop hv hpop hentry, items_of_pop? hpop, hentry]
    obtain ⟨value, admission, used⟩ := entry
    cases used with
    | false =>
      exact (sweepItems_of_unused chances (place.1, ⟨value, admission, false⟩) rfl _).symm
    | true =>
      cases chances with
      | zero => rfl
      | succ chances => exact (hlast value admission chances rfl rfl).elim

/-! ### Operations -/

theorem valid_get (hv : t.Valid) (key : κ) : (t.get key).2.Valid := by
  unfold get
  split
  · next entry hentry => exact valid_update hv hentry _ rfl
  · exact hv

theorem items_get (key : κ) :
    (t.get key).2.items =
      t.items.map fun item => if item.1 == key then (item.1, { item.2 with used := true })
        else item := by
  cases hentry : t.entries[key]? with
  | some entry =>
    rw [show (t.get key).2 = { t with entries := t.entries.insert key { entry with used := true } }
      by simp only [get, hentry],
      items_update hentry { entry with used := true } rfl]
    refine List.map_congr_left fun item hitem => ?_
    split
    · next hkey =>
      have hlookup := lookup_of_mem_items hitem
      rw [eq_of_beq hkey, hentry] at hlookup
      rw [Option.some.inj hlookup]
    · rfl
  | none =>
    rw [show (t.get key).2 = t by simp only [get, hentry]]
    refine ((List.map_congr_left fun item hitem => ?_).trans (List.map_id _)).symm
    rw [if_neg, id]
    intro hkey
    have hlookup := lookup_of_mem_items hitem
    rw [eq_of_beq hkey, hentry] at hlookup
    cases hlookup

theorem valid_remove (hv : t.Valid) (key : κ) : (t.remove key).2.Valid := by
  unfold remove
  split
  · exact valid_erase hv key
  · exact hv

theorem items_remove (hv : t.Valid) (key : κ) :
    (t.remove key).2.items = t.items.filter (·.1 != key) := by
  unfold remove
  cases hentry : t.entries[key]? with
  | some entry => exact items_erase key
  | none =>
    have habsent := (peek?_eq_none_iff hv).1 (show t.peek? key = none by simp [peek?, hentry])
    exact (List.filter_eq_self.2 fun item hitem => by simpa using habsent item hitem).symm

omit [LawfulBEq κ] in
theorem valid_compact (hv : t.Valid) : t.compact.Valid where
  capacity_pos := hv.capacity_pos
  admission_le place hplace := by
    rw [compact, Queue.toList_filter] at hplace
    exact hv.admission_le place (List.mem_filter.1 hplace).1
  distinct := by
    rw [compact, Queue.toList_filter]
    exact hv.distinct.filter _
  queued key entry hentry := by
    rw [compact, Queue.toList_filter, List.mem_filter]
    refine ⟨hv.queued key entry hentry, ?_⟩
    rw [entryAt?_eq_some_iff.2 ⟨hentry, rfl⟩, Option.isSome_some]

omit [LawfulBEq κ] in
theorem items_compact : t.compact.items = t.items := by
  simp only [items, compact, Queue.toList_filter, List.filterMap_filter]
  refine List.filterMap_congr fun place _ => ?_
  rw [show entryAt? { t with queue := t.queue.filter fun place => (t.entryAt? place).isSome } place
    = t.entryAt? place from rfl]
  cases t.entryAt? place <;> rfl

theorem valid_append (hv : t.Valid) (key : κ) (value : ν) : (t.append key value).Valid := by
  suffices hadmit : ({ t with
      clock := t.clock + 1
      entries := t.entries.insert key ⟨value, t.clock + 1, false⟩
      queue := t.queue.push (key, t.clock + 1) } : Table κ ν).Valid by
    unfold append
    simp only
    split
    · exact valid_compact hadmit
    · exact hadmit
  refine ⟨hv.capacity_pos, fun place hplace => ?_, ?_, fun k e he => ?_⟩
  · rw [Queue.toList_push, List.mem_append, List.mem_singleton] at hplace
    rcases hplace with hold | rfl
    · exact Nat.le_succ_of_le (hv.admission_le place hold)
    · exact Nat.le_refl _
  · rw [Queue.toList_push, List.pairwise_append]
    refine ⟨hv.distinct, List.pairwise_singleton _ _, fun place hplace new hnew => ?_⟩
    obtain rfl := List.mem_singleton.1 hnew
    have := hv.admission_le place hplace
    show place.2 ≠ t.clock + 1
    omega
  · rw [Queue.toList_push, List.mem_append, List.mem_singleton]
    rw [Std.HashMap.getElem?_insert] at he
    split at he
    · next hk =>
      obtain rfl := eq_of_beq hk
      obtain rfl := Option.some.inj he
      exact Or.inr rfl
    · exact Or.inl (hv.queued k e he)

theorem items_append (hv : t.Valid) {key : κ} (habsent : t.peek? key = none) (value : ν) :
    (t.append key value).items = t.items ++ [(key, ⟨value, t.clock + 1, false⟩)] := by
  suffices hadmit : ({ t with
      clock := t.clock + 1
      entries := t.entries.insert key ⟨value, t.clock + 1, false⟩
      queue := t.queue.push (key, t.clock + 1) } : Table κ ν).items =
        t.items ++ [(key, ⟨value, t.clock + 1, false⟩)] by
    unfold append
    simp only
    split
    · exact items_compact.trans hadmit
    · exact hadmit
  have hentries : t.entries[key]? = none := Option.map_eq_none_iff.1 habsent
  simp only [items, Queue.toList_push, List.filterMap_append]
  congr 1
  · refine List.filterMap_congr fun place hplace => ?_
    have hle := hv.admission_le place hplace
    -- a place that an earlier entry of the key left behind stays one
    by_cases hk : key = place.1
    · subst hk
      simp [entryAt?, hentries, show ¬ t.clock + 1 = place.2 by omega, Option.filter]
    · simp [entryAt?, Std.HashMap.getElem?_insert, hk]
  · simp [entryAt?, Option.filter]

theorem valid_makeRoom (hv : t.Valid) : t.makeRoom.2.Valid := by
  unfold makeRoom
  split
  · exact hv
  · exact (sweep_eq _ hv).1

theorem makeRoom_of_room (hv : t.Valid) (h : t.items.length < t.capacity) :
    t.makeRoom = (none, t) := by
  rw [makeRoom, if_pos (length_items hv ▸ h)]

theorem makeRoom_of_full (hv : t.Valid) (h : t.capacity ≤ t.items.length) :
    (t.makeRoom.1, t.makeRoom.2.items) = sweepItems secondChances t.items := by
  rw [makeRoom, if_neg (by rw [← length_items hv]; omega)]
  exact (sweep_eq _ hv).2

theorem valid_insert (hv : t.Valid) (key : κ) (value : ν) : (t.insert key value).2.Valid := by
  cases h : t.entries[key]? with
  | none =>
    rw [insert_of_absent (by simp [peek?, h])]
    exact valid_append (valid_makeRoom hv) key value
  | some entry =>
    rw [insert_of_present h]
    exact valid_update hv h _ rfl

/-- What letting a new key in does to the list: a sweep if the table is full, and a new last
item. -/
theorem items_insert_of_absent (hv : t.Valid) {key : κ} (habsent : t.peek? key = none)
    (value : ν) :
    (t.insert key value).2.items =
      t.makeRoom.2.items ++ [(key, ⟨value, t.clock + 1, false⟩)] := by
  rw [insert_of_absent habsent,
    items_append (valid_makeRoom hv) (peek?_makeRoom_of_absent habsent),
    (swept_makeRoom t).clock_eq]

/-- A table with room for all keys that come to it drops none. -/
theorem fst_insert_of_few (hv : t.Valid) {keys : Finset κ} {key : κ} (hkey : key ∈ keys)
    (hkeys : ∀ item ∈ t.items, item.1 ∈ keys) (hcard : keys.card ≤ t.capacity) (value : ν) :
    (t.insert key value).1 = none := by
  classical
  cases hentry : t.entries[key]? with
  | some entry => rw [insert_of_present hentry]
  | none =>
    have habsent : t.peek? key = none := by rw [peek?, hentry, Option.map_none]
    have hothers : ∀ item ∈ t.items, item.1 ∈ keys.erase key := fun item hitem =>
      Finset.mem_erase.2 ⟨(peek?_eq_none_iff hv).1 habsent item hitem, hkeys item hitem⟩
    have hroom : t.items.length < t.capacity :=
      calc t.items.length
          ≤ (keys.erase key).card := length_items_le hv hothers
        _ < keys.card := Finset.card_erase_lt_of_mem hkey
        _ ≤ t.capacity := hcard
    rw [insert_of_absent habsent, makeRoom_of_room hv hroom]

end Table

end FsTrace
