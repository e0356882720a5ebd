import FsTrace.Proofs.SecondChance

/-!
# Tables as queues of live entries

A table removes lazily: places of removed entries stay in its queue, and it tells them apart by the
numbers of the admissions. None of this can be observed. A table answers every sequence of requests
like a plain list of its entries, from which a removed entry is gone at once.

* `LiveQueue`, the list of entries in the order in which they wait, with the operations of a table;
* `Table.Request`, `Table.Answer`, and what can be observed of a run: the answer to each request,
  the number of entries and that of evictions after it;
* `Table.live`, the live entries of a table, and one lemma for each operation: `live_get`,
  `live_remove`, `live_makeRoom`, `live_insert`;
* `Table.observe_eq_live`: a table and the list are observed alike.
-/

namespace FsTrace

/-- An entry that waits in line. -/
structure Waiting (κ ν : Type) where
  key : κ
  value : ν
  /-- Whether the entry was used since it came or was last passed over. -/
  used : Bool

/-- The entries of a bounded table, in the order in which they wait. -/
structure LiveQueue (κ ν : Type) where
  capacity : Nat
  waiting : List (Waiting κ ν)
  /-- The number of entries that had to make room. -/
  evictions : Nat

namespace LiveQueue

variable {κ ν : Type}

/-- Nobody waits; the least capacity is one. -/
def new (capacity : Nat) : LiveQueue κ ν := ⟨max 1 capacity, [], 0⟩

/-- The number of entries. -/
def size (q : LiveQueue κ ν) : Nat := q.waiting.length

/-- Makes room if there is none. The leading used entries, `secondChances` of them at most, go
unused to the end in their order, and then the one at the front is dropped. -/
def makeRoom (q : LiveQueue κ ν) : Option κ × LiveQueue κ ν :=
  if q.capacity ≤ q.size then
    let passed := min (q.waiting.takeWhile (·.used)).length secondChances
    let sent := (q.waiting.take passed).map fun w => { w with used := false }
    match q.waiting.drop passed ++ sent with
    | [] => (none, q)
    | first :: rest =>
      (some first.key, { q with waiting := rest, evictions := q.evictions + 1 })
  else (none, q)

/-- A new entry comes last and is not used. -/
def append (q : LiveQueue κ ν) (key : κ) (value : ν) : LiveQueue κ ν :=
  { q with waiting := q.waiting ++ [⟨key, value, false⟩] }

variable [BEq κ]

/-- The value of a key; nothing changes. -/
def peek? (q : LiveQueue κ ν) (key : κ) : Option ν :=
  (q.waiting.find? (·.key == key)).map (·.value)

/-- Changes the entry of a key where it waits. -/
def update (q : LiveQueue κ ν) (key : κ) (f : Waiting κ ν → Waiting κ ν) : LiveQueue κ ν :=
  { q with waiting := q.waiting.map fun w => if w.key == key then f w else w }

/-- The value of a key, whose entry is now used. -/
def get (q : LiveQueue κ ν) (key : κ) : Option ν × LiveQueue κ ν :=
  (q.peek? key, q.update key fun w => { w with used := true })

/-- Whether a key is present; its entry is now used. -/
def contains (q : LiveQueue κ ν) (key : κ) : Bool × LiveQueue κ ν :=
  ((q.peek? key).isSome, (q.get key).2)

/-- Takes the entry of a key out, at once. -/
def remove (q : LiveQueue κ ν) (key : κ) : Option ν × LiveQueue κ ν :=
  (q.peek? key, { q with waiting := q.waiting.filter (·.key != key) })

/-- Sets the value of a key. A present one is overwritten where it waits and is now used; a new one
comes last, once there is room for it. -/
def insert (q : LiveQueue κ ν) (key : κ) (value : ν) : Option κ × LiveQueue κ ν :=
  if (q.peek? key).isSome then (none, q.update key fun w => { w with value, used := true })
  else (q.makeRoom.1, q.makeRoom.2.append key value)

end LiveQueue

namespace Table

variable {κ ν : Type}

/-- What can be asked of a table. -/
inductive Request (κ ν : Type)
  | insert (key : κ) (value : ν)
  | get (key : κ)
  | peek (key : κ)
  | contains (key : κ)
  | remove (key : κ)

/-- What is answered. -/
inductive Answer (κ ν : Type)
  /-- The key that had to make room. -/
  | evicted (key : Option κ)
  | value (value : Option ν)
  | present (found : Bool)

/-- What can be observed after a request. -/
structure Observation (κ ν : Type) where
  answer : Answer κ ν
  size : Nat
  evictions : Nat

end Table

/-- A list of entries answers one request. -/
def LiveQueue.perform {κ ν : Type} [BEq κ] (q : LiveQueue κ ν) :
    Table.Request κ ν → Table.Answer κ ν × LiveQueue κ ν
  | .insert key value => ((q.insert key value).map .evicted id)
  | .get key => ((q.get key).map .value id)
  | .peek key => (.value (q.peek? key), q)
  | .contains key => ((q.contains key).map .present id)
  | .remove key => ((q.remove key).map .value id)

/-- What is observed of a list of entries while it answers some requests. -/
def LiveQueue.observe {κ ν : Type} [BEq κ] (q : LiveQueue κ ν) :
    List (Table.Request κ ν) → List (Table.Observation κ ν)
  | [] => []
  | request :: requests =>
    let (answer, q) := q.perform request
    ⟨answer, q.size, q.evictions⟩ :: q.observe requests

namespace Table

variable {κ ν : Type} [BEq κ] [Hashable κ]

/-- A table answers one request. -/
def perform (t : Table κ ν) : Request κ ν → Answer κ ν × Table κ ν
  | .insert key value => ((t.insert key value).map .evicted id)
  | .get key => ((t.get key).map .value id)
  | .peek key => (.value (t.peek? key), t)
  | .contains key => ((t.contains key).map .present id)
  | .remove key => ((t.remove key).map .value id)

/-- What is observed of a table while it answers some requests. -/
def observe (t : Table κ ν) : List (Request κ ν) → List (Observation κ ν)
  | [] => []
  | request :: requests =>
    let (answer, t) := t.perform request
    ⟨answer, t.size, t.evictions⟩ :: t.observe requests

/-- An item of a table as an entry in line. -/
def waiting (item : κ × Entry ν) : Waiting κ ν := ⟨item.1, item.2.value, item.2.used⟩

/-- The live entries of a table. -/
def live (t : Table κ ν) : LiveQueue κ ν := ⟨t.capacity, t.items.map waiting, t.evictions⟩

@[simp] theorem live_new (capacity : Nat) : (new capacity : Table κ ν).live = .new capacity := by
  rw [live, items_new, new, LiveQueue.new, Nat.max_comm]
  rfl

/-! ### Sweeps -/

/-- An item that is not used any more. -/
def unmarked (item : κ × Entry ν) : κ × Entry ν := (item.1, { item.2 with used := false })

omit [BEq κ] [Hashable κ] in
/-- A sweep turns the line once, by all the used entries that it passes over. -/
theorem sweepItems_eq (chances : Nat) (items : List (κ × Entry ν)) :
    sweepItems chances items =
      let passed := min (items.takeWhile (·.2.used)).length chances
      let turned := items.drop passed ++ (items.take passed).map unmarked
      (turned.head?.map (·.1), turned.tail) := by
  induction chances generalizing items with
  | zero =>
    cases items with
    | nil => rfl
    | cons item rest =>
      have hfirst : sweepItems 0 (item :: rest) = (some item.1, rest) := by
        obtain ⟨key, value, admission, used⟩ := item
        cases used <;> rfl
      simp [hfirst]
  | succ chances ih =>
    cases items with
    | nil => rfl
    | cons item rest =>
      obtain ⟨key, value, admission, used⟩ := item
      cases used with
      | false => simp [sweepItems]
      | true =>
        -- the entry goes unused to the end, so that nothing there counts as leading
        have hleading : ((rest ++ [(key, (⟨value, admission, false⟩ : Entry ν))]).takeWhile
            (·.2.used)).length = (rest.takeWhile (·.2.used)).length := by
          rw [List.takeWhile_append]
          split
          · next hall => simp [hall]
          · rfl
        have hle : min (rest.takeWhile (·.2.used)).length chances ≤ rest.length :=
          (min_le_left _ _).trans (List.takeWhile_sublist _).length_le
        rw [sweepItems, ih]
        simp only [hleading, List.takeWhile_cons_of_pos, List.length_cons,
          Nat.succ_min_succ, List.drop_succ_cons, List.take_succ_cons, List.map_cons,
          List.drop_append_of_le_length hle, List.take_append_of_le_length hle,
          List.append_assoc, List.singleton_append]
        rfl

variable [LawfulBEq κ] {t : Table κ ν}

/-! ### Single requests -/

theorem size_live (hv : t.Valid) : t.live.size = t.size := by
  rw [LiveQueue.size, live, List.length_map, length_items hv]

theorem peek?_live (hv : t.Valid) (key : κ) : t.live.peek? key = t.peek? key := by
  rw [LiveQueue.peek?, live, List.find?_map, Option.map_map]
  cases hitem : t.items.find? ((fun w : Waiting κ ν => w.key == key) ∘ waiting) with
  | none =>
    have habsent : ∀ item ∈ t.items, item.1 ≠ key := by
      intro item hmem
      simpa [waiting] using List.find?_eq_none.1 hitem item hmem
    exact ((peek?_eq_none_iff hv).2 habsent).symm
  | some item =>
    have hkey : item.1 = key := by
      simpa [waiting] using List.find?_some hitem
    have hentry := lookup_of_mem_items (List.mem_of_find?_eq_some hitem)
    rw [hkey] at hentry
    rw [peek?, hentry]
    rfl

omit [LawfulBEq κ] in
/-- Changing the items of a key changes its entry in line. -/
theorem waiting_update {key : κ} {g : κ × Entry ν → κ × Entry ν} {f : Waiting κ ν → Waiting κ ν}
    (h : ∀ item, waiting (g item) = f (waiting item)) :
    (t.items.map fun item => if item.1 == key then g item else item).map waiting =
      (t.live.update key f).waiting := by
  rw [LiveQueue.update, live, List.map_map, List.map_map]
  refine List.map_congr_left fun item _ => ?_
  have hkey : (waiting item).key = item.1 := rfl
  rw [Function.comp_apply, Function.comp_apply, hkey, ← h, apply_ite waiting]

theorem live_get (key : κ) : (t.get key).2.live = (t.live.get key).2 := by
  have hwaiting : (t.get key).2.items.map waiting =
      (t.live.update key fun w => { w with used := true }).waiting := by
    rw [items_get]
    exact waiting_update fun _ => rfl
  rw [live, hwaiting, capacity_get, evictions_get]
  rfl

theorem live_remove (hv : t.Valid) (key : κ) : (t.remove key).2.live = (t.live.remove key).2 := by
  have hwaiting : (t.remove key).2.items.map waiting = (t.live.remove key).2.waiting := by
    rw [items_remove hv, LiveQueue.remove, live, List.filter_map]
    rfl
  rw [live, hwaiting, capacity_remove, evictions_remove]
  rfl

theorem live_makeRoom (hv : t.Valid) :
    (t.makeRoom.1, t.makeRoom.2.live) = t.live.makeRoom := by
  have hlength : t.live.size = t.items.length := List.length_map _
  unfold LiveQueue.makeRoom
  by_cases hfull : t.capacity ≤ t.items.length
  · have hswept := swept_makeRoom t
    have hsweep := makeRoom_of_full hv hfull
    rw [sweepItems_eq] at hsweep
    -- the two lines turn by the same number of entries
    have hleading : (t.live.waiting.takeWhile (·.used)).length =
        (t.items.takeWhile (·.2.used)).length := by
      rw [live, List.takeWhile_map, List.length_map]
      rfl
    rw [if_pos (show t.live.capacity ≤ t.live.size from hlength ▸ hfull), hleading]
    set passed := min (t.items.takeWhile (·.2.used)).length secondChances
    have hturned : t.live.waiting.drop passed ++
        (t.live.waiting.take passed).map (fun w => { w with used := false }) =
        (t.items.drop passed ++ (t.items.take passed).map unmarked).map waiting := by
      simp only [live, List.map_append, List.map_drop, List.map_take, List.map_map]
      rfl
    obtain ⟨hevicted, hitems⟩ := Prod.mk.inj hsweep
    simp only [hturned]
    cases hline : t.items.drop passed ++ (t.items.take passed).map unmarked with
    | nil =>
      have hempty : t.items.length = 0 := by
        have := congrArg List.length hline
        simp only [List.length_append, List.length_drop, List.length_map, List.length_take,
          List.length_nil] at this
        omega
      have := hv.capacity_pos
      omega
    | cons first rest =>
      rw [hline] at hevicted hitems
      have hcount := hswept.evictions_eq
      rw [hevicted] at hcount
      simp only [live, hitems, hevicted, hswept.capacity_eq, hcount]
      rfl
  · rw [if_neg (show ¬ t.live.capacity ≤ t.live.size from hlength ▸ hfull),
      makeRoom_of_room hv (Nat.lt_of_not_le hfull)]

theorem live_insert (hv : t.Valid) (key : κ) (value : ν) :
    ((t.insert key value).1, (t.insert key value).2.live) = t.live.insert key value := by
  rw [LiveQueue.insert, peek?_live hv]
  cases hentry : t.entries[key]? with
  | some entry =>
    have hpresent : (t.peek? key).isSome = true := by simp [peek?, hentry]
    rw [if_pos hpresent, insert_of_present hentry]
    rw [live, items_update hentry { entry with value, used := true } rfl]
    rw [waiting_update (f := fun w => { w with value, used := true }) fun _ => rfl]
    rfl
  | none =>
    have habsent : t.peek? key = none := by simp [peek?, hentry]
    have hmake := live_makeRoom hv
    have hgone := peek?_makeRoom_of_absent habsent
    rw [if_neg (by simp [habsent]), ← hmake, insert_of_absent habsent]
    simp only [live, LiveQueue.append, items_append (valid_makeRoom hv) hgone, capacity_append,
      evictions_append, List.map_append]
    rfl

/-! ### Runs -/

/-- One request: a table and its list give the same answer, and stay in step. -/
theorem live_perform (hv : t.Valid) (request : Request κ ν) :
    (t.perform request).2.Valid ∧
      ((t.perform request).1, (t.perform request).2.live) = t.live.perform request := by
  cases request with
  | insert key value =>
    refine ⟨valid_insert hv key value, ?_⟩
    rw [LiveQueue.perform, ← live_insert hv]
    rfl
  | get key =>
    refine ⟨valid_get hv key, ?_⟩
    show (Answer.value (t.get key).1, (t.get key).2.live) = _
    rw [fst_get, live_get, ← peek?_live hv]
    rfl
  | peek key =>
    refine ⟨hv, ?_⟩
    rw [LiveQueue.perform, peek?_live hv]
    rfl
  | contains key =>
    refine ⟨valid_get hv key, ?_⟩
    show (Answer.present (t.contains key).1, (t.get key).2.live) = _
    rw [fst_contains, live_get, ← peek?_live hv]
    rfl
  | remove key =>
    refine ⟨valid_remove hv key, ?_⟩
    show (Answer.value (t.remove key).1, (t.remove key).2.live) = _
    rw [fst_remove, live_remove hv, ← peek?_live hv]
    rfl

theorem observe_live (hv : t.Valid) (requests : List (Request κ ν)) :
    t.observe requests = t.live.observe requests := by
  induction requests generalizing t with
  | nil => rfl
  | cons request requests ih =>
    obtain ⟨hvalid, hperform⟩ := live_perform hv request
    have hobserve := ih hvalid
    have hsize := size_live hvalid
    rw [observe, LiveQueue.observe, ← hperform]
    simp only [← hobserve, hsize]
    rfl

/-- **A table is the queue of its live entries.** Whatever is asked of a table and of the plain list
of entries, one request after another from the start on: both give the same answers, and after each
request the same number of entries and of evictions. -/
theorem observe_eq_live (capacity : Nat) (requests : List (Request κ ν)) :
    (new capacity : Table κ ν).observe requests =
      (LiveQueue.new capacity : LiveQueue κ ν).observe requests := by
  rw [observe_live (valid_new capacity), live_new]

/-- A key that was removed and let in again waits behind one that stayed, and is dropped before it
once that one was used. -/
theorem observe_readmitted :
    (new 2 : Table Nat Nat).observe
        [.insert 1 10, .insert 2 20, .remove 1, .insert 1 11, .contains 2, .insert 3 30, .peek 1] =
      [⟨.evicted none, 1, 0⟩, ⟨.evicted none, 2, 0⟩, ⟨.value (some 10), 1, 0⟩,
        ⟨.evicted none, 2, 0⟩, ⟨.present true, 2, 0⟩, ⟨.evicted (some 1), 2, 1⟩,
        ⟨.value none, 2, 1⟩] :=
  (observe_eq_live 2 _).trans rfl

end Table

end FsTrace
