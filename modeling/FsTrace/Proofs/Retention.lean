import FsTrace.Proofs.TableLimits

/-!
# How long a key stays

A key that was just let in waits behind all others. A sweep takes at most `secondChances + 1` of
those in front of it: it puts the ones that it passes over behind the key, and drops the next one.
So a table that has room for that many keys for each one that is let in later has not come to the
key yet, whatever is used, overwritten or taken out in between.

* `sweepItems_of_chances_lt`: a sweep does not come to an item with enough others in front of it;
* `Table.SafeFor`: a key that stays while so many others are let in. A new key is one
  (`safeFor_insert`), and every request that does not take it out leaves it one
  (`SafeFor.perform`, `SafeFor.after`);
* `SafeFor.peek?_insert`: what is let in meanwhile leaves the value of the key alone;
* `Table.isSome_of_few`: how many keys can be let in without a loss of the last one.
-/

namespace FsTrace

namespace Table

variable {κ ν : Type} [BEq κ] [Hashable κ]

/-! ### Sweeps -/

omit [BEq κ] [Hashable κ] in
/-- A sweep that comes to no item from `item` on: it drops one of those in front, and puts the ones
that it passed over behind. -/
theorem sweepItems_of_chances_lt {chances : Nat} {front : List (κ × Entry ν)}
    (h : chances < front.length) (item : κ × Entry ν) (back : List (κ × Entry ν)) :
    ∃ front' sent, (sweepItems chances (front ++ item :: back)).2 =
        front' ++ item :: (back ++ sent) ∧
      front'.length + sent.length + 1 = front.length ∧ sent.length ≤ chances := by
  induction chances generalizing front back with
  | zero =>
    obtain ⟨first, rest, rfl⟩ := List.exists_cons_of_length_pos h
    refine ⟨rest, [], ?_, rfl, le_rfl⟩
    rw [List.append_nil]
    obtain ⟨key, value, admission, used⟩ := first
    cases used <;> rfl
  | succ chances ih =>
    obtain ⟨⟨key, value, admission, used⟩, rest, rfl⟩ :=
      List.exists_cons_of_length_pos (Nat.zero_lt_of_lt h)
    cases used with
    | false => exact ⟨rest, [], by rw [List.append_nil]; rfl, rfl, Nat.zero_le _⟩
    | true =>
      -- the used item goes to the end, behind `back`
      have hrest : chances < rest.length := Nat.lt_of_succ_lt_succ h
      obtain ⟨front', sent, hsweep, hlength, hsent⟩ :=
        ih hrest (back ++ [(key, ⟨value, admission, false⟩)])
      refine ⟨front', (key, ⟨value, admission, false⟩) :: sent, ?_, ?_, Nat.succ_le_succ hsent⟩
      · rw [List.append_assoc, List.singleton_append] at hsweep
        rw [← hsweep, List.cons_append, sweepItems, List.append_assoc, List.cons_append]
      · rw [List.length_cons, List.length_cons]
        omega

/-! ### Keys that stay -/

/-- A key is present, and stays while so many more are let in: as far as there is no free room for
them, each sweep finds enough items in front of it. -/
def SafeFor (t : Table κ ν) (key : κ) (admissions : Nat) : Prop :=
  ∃ front item back, t.items = front ++ item :: back ∧ item.1 = key ∧
    (secondChances + 1) * (admissions + t.items.length) ≤
      (secondChances + 1) * t.capacity + front.length

variable {t t' : Table κ ν} {key k : κ} {value : ν} {m n : Nat}

theorem SafeFor.isSome (h : t.SafeFor key n) : (t.peek? key).isSome := by
  obtain ⟨front, item, back, hitems, rfl, -⟩ := h
  have hmem : item ∈ t.items := hitems ▸ List.mem_append_right _ List.mem_cons_self
  rw [peek?, lookup_of_mem_items hmem]
  rfl

theorem SafeFor.mono (h : t.SafeFor key n) (hle : m ≤ n) : t.SafeFor key m := by
  obtain ⟨front, item, back, hitems, hkey, hroom⟩ := h
  exact ⟨front, item, back, hitems, hkey,
    (Nat.mul_le_mul_left _ (Nat.add_le_add_right hle _)).trans hroom⟩

/-- What changes items in place lets nothing come closer to the key. -/
theorem SafeFor.of_map (h : t.SafeFor key n) {f : κ × Entry ν → κ × Entry ν}
    (hf : ∀ item, (f item).1 = item.1) (hitems : t'.items = t.items.map f)
    (hcapacity : t'.capacity = t.capacity) : t'.SafeFor key n := by
  obtain ⟨front, item, back, hsplit, hkey, hroom⟩ := h
  refine ⟨front.map f, f item, back.map f, ?_, (hf item).trans hkey, ?_⟩
  · rw [hitems, hsplit, List.map_append, List.map_cons]
  · rw [hitems, List.length_map, List.length_map, hcapacity]
    exact hroom

/-- Neither does what takes others out: the room that they leave makes up for it. -/
theorem SafeFor.of_filter (h : t.SafeFor key n) {p : κ × Entry ν → Bool}
    (hp : ∀ item, item.1 = key → p item = true) (hitems : t'.items = t.items.filter p)
    (hcapacity : t'.capacity = t.capacity) : t'.SafeFor key n := by
  obtain ⟨front, item, back, hsplit, hkey, hroom⟩ := h
  refine ⟨front.filter p, item, back.filter p, ?_, hkey, ?_⟩
  · rw [hitems, hsplit, List.filter_append, List.filter_cons_of_pos (hp item hkey)]
  · have hfront : (front.filter p).length ≤ front.length := List.length_filter_le _ _
    have hback : (back.filter p).length ≤ back.length := List.length_filter_le _ _
    rw [hsplit] at hroom
    rw [hitems, hsplit, List.filter_append, List.filter_cons_of_pos (hp item hkey), hcapacity]
    simp only [List.length_append, List.length_cons, secondChances] at hroom ⊢
    omega

variable [LawfulBEq κ]

theorem SafeFor.get (h : t.SafeFor key n) (k : κ) : (t.get k).2.SafeFor key n := by
  refine h.of_map (fun item => ?_) (items_get k) (capacity_get t k)
  split <;> rfl

theorem SafeFor.remove (hv : t.Valid) (h : t.SafeFor key n) (hne : k ≠ key) :
    (t.remove k).2.SafeFor key n := by
  refine h.of_filter (fun item hkey => ?_) (items_remove hv k) (capacity_remove t k)
  simpa [hkey] using hne.symm

/-- Overwriting a value moves no item. -/
theorem SafeFor.insert_of_present (h : t.SafeFor key n) (hpresent : (t.peek? k).isSome)
    (value : ν) : (t.insert k value).2.SafeFor key n := by
  obtain ⟨entry, hentry⟩ := Option.isSome_iff_exists.1 (Option.isSome_map.symm.trans hpresent)
  rw [Table.insert_of_present hentry]
  refine h.of_map (fun item => ?_) (items_update hentry _ rfl) rfl
  split <;> rfl

/-- Letting a key in takes one admission. -/
theorem SafeFor.insert_of_absent (hb : t.Bounded) (h : t.SafeFor key (n + 1))
    (habsent : t.peek? k = none) (value : ν) : (t.insert k value).2.SafeFor key n := by
  obtain ⟨front, item, back, hsplit, hkey, hroom⟩ := h
  have hitems := items_insert_of_absent hb.toValid habsent value
  by_cases hfull : t.capacity ≤ t.items.length
  · -- the table is full, so that at least the items of one sweep are in front of the key
    have hsize : t.items.length = t.capacity :=
      le_antisymm ((length_items hb.toValid).trans_le hb.size_le) hfull
    have hfront : secondChances < front.length := by
      rw [hsize] at hroom
      simp only [secondChances] at hroom ⊢
      omega
    obtain ⟨front', sent, hsweep, hlength, hsent⟩ := sweepItems_of_chances_lt hfront item back
    have hroomed : t.makeRoom.2.items = _ := congrArg Prod.snd (makeRoom_of_full hb.toValid hfull)
    rw [hroomed, hsplit, hsweep] at hitems
    refine ⟨front', item, back ++ sent ++ [(k, ⟨value, t.clock + 1, false⟩)], ?_, hkey, ?_⟩
    · rw [hitems, List.append_assoc, List.cons_append]
    · rw [hsplit] at hroom hsize
      rw [hitems, capacity_insert]
      simp only [List.length_append, List.length_cons, List.length_nil, secondChances] at *
      omega
  · rw [makeRoom_of_room hb.toValid (Nat.lt_of_not_le hfull), hsplit] at hitems
    refine ⟨front, item, back ++ [(k, ⟨value, t.clock + 1, false⟩)], ?_, hkey, ?_⟩
    · rw [hitems, List.append_assoc, List.cons_append]
    · rw [hsplit] at hroom
      rw [hitems, capacity_insert]
      simp only [List.length_append, List.length_cons, List.length_nil, secondChances] at hroom ⊢
      omega

/-- Letting a key in, or overwriting a value, takes at most one admission. -/
theorem SafeFor.insert (hb : t.Bounded) (h : t.SafeFor key (n + 1)) (k : κ) (value : ν) :
    (t.insert k value).2.SafeFor key n := by
  by_cases hpresent : (t.peek? k).isSome
  · exact (h.mono n.le_succ).insert_of_present hpresent value
  · exact h.insert_of_absent hb (Option.not_isSome_iff_eq_none.1 hpresent) value

/-- What is let in meanwhile leaves the value of the key alone. -/
theorem SafeFor.peek?_insert (hb : t.Bounded) (h : t.SafeFor key (n + 1)) (hne : k ≠ key)
    (value : ν) : (t.insert k value).2.peek? key = t.peek? key := by
  refine peek?_insert_of_ne hne fun hevicts => ?_
  have hstays := (h.insert hb k value).isSome
  rw [peek?_of_insert_evicts hne hevicts] at hstays
  cases hstays

/-- A key that was just let in waits behind all others. -/
theorem safeFor_insert (hb : t.Bounded) (habsent : t.peek? key = none)
    (hroom : (secondChances + 1) * n < t.capacity) (value : ν) :
    (t.insert key value).2.SafeFor key n := by
  have hitems := items_insert_of_absent hb.toValid habsent value
  have hbounded := hb.insert key value
  have hsize := (length_items hbounded.toValid).trans_le hbounded.size_le
  rw [capacity_insert] at hsize
  refine ⟨_, _, [], hitems, rfl, ?_⟩
  rw [hitems] at hsize ⊢
  rw [capacity_insert]
  simp only [List.length_append, List.length_cons, List.length_nil, secondChances] at *
  omega

/-! ### Runs -/

/-- Every request that does not take the key out leaves it safe, for one key less if it lets one
in. -/
theorem SafeFor.perform (hb : t.Bounded) (request : Request κ ν)
    (h : t.SafeFor key (n + t.letsIn request)) (hrequest : request ≠ .remove key) :
    (t.perform request).2.SafeFor key n := by
  cases request with
  | insert k value =>
    rw [letsIn] at h
    split at h
    · next habsent => exact h.insert_of_absent hb (Option.isNone_iff_eq_none.1 habsent) value
    · next hpresent =>
      rw [Bool.not_eq_true, Option.isNone_eq_false_iff] at hpresent
      exact h.insert_of_present hpresent value
  | get k => exact h.get k
  | peek k => exact h
  | contains k => exact h.get k
  | remove k => exact h.remove hb.toValid fun hsame => hrequest (congrArg _ hsame)

theorem SafeFor.after (hb : t.Bounded) (requests : List (Request κ ν))
    (h : t.SafeFor key (n + Run.total next letsIn t requests))
    (hrequests : .remove key ∉ requests) : (t.after requests).SafeFor key n := by
  induction requests generalizing t with
  | nil => exact h
  | cons request requests ih =>
    rw [List.mem_cons, not_or] at hrequests
    rw [Run.total, Nat.add_comm (t.letsIn request), ← Nat.add_assoc] at h
    exact ih (hb.perform request) (h.perform hb request (Ne.symm hrequests.1)) hrequests.2

/-- **How long a key stays.** A key was let in by a table, at any point of a run. It is still there
after any requests that do not take it out and let at most `m` other keys in, if the table has room
for more than `secondChances + 1` times as many. -/
theorem isSome_of_few (capacity m : Nat) (before requests : List (Request κ ν)) (key : κ)
    (value : ν) (hroom : (secondChances + 1) * m < capacity)
    (habsent : ((new capacity : Table κ ν).after before).peek? key = none)
    (hrequests : .remove key ∉ requests)
    (hfew : Run.total next letsIn (((new capacity : Table κ ν).after before).insert key value).2
      requests ≤ m) :
    (((((new capacity : Table κ ν).after before).insert key value).2.after requests).peek?
      key).isSome := by
  have hb := (bounded_new (κ := κ) (ν := ν) capacity).after before
  have hcapacity : ((new capacity : Table κ ν).after before).capacity = max capacity 1 :=
    capacity_after _ _
  have hsafe := safeFor_insert hb habsent (n := m)
    (hroom.trans_le (hcapacity ▸ Nat.le_max_left capacity 1)) value
  exact ((hsafe.mono ((Nat.zero_add _).trans_le hfew)).after (hb.insert key value) requests
    hrequests).isSome

/-- Lets some numbers in, one after another. -/
def letAllIn (keys : List Nat) : List (Request Nat Nat) := keys.map fun key => .insert key key

/-- Nine used keys wait in front of the last one. To let one more in, eight of them are put behind
it and the ninth is dropped. -/
theorem isSome_of_few_used :
    (((((new 10).after (letAllIn [1, 2, 3, 4, 5, 6, 7, 8, 9])).insert 0 0).2.after
      ([1, 2, 3, 4, 5, 6, 7, 8, 9].map Request.get ++ letAllIn [10])).peek? 0).isSome := by
  refine isSome_of_few 10 1 _ _ 0 0 (by decide) ?_ (by simp [letAllIn]) ?_
  · obtain ⟨hvalid, hlive⟩ := live_after (valid_new 10) (letAllIn [1, 2, 3, 4, 5, 6, 7, 8, 9])
    rw [← peek?_live hvalid, hlive, live_new]
    rfl
  · simp only [letAllIn, List.map_cons, List.map_nil, List.cons_append, List.nil_append, Run.total,
      letsIn, Nat.zero_add, Nat.add_zero]
    split <;> decide

/-- With room for one key less, the last one is dropped. -/
example :
    ((letAllIn [1, 2, 3, 4, 5, 6, 7, 8, 0] ++ [1, 2, 3, 4, 5, 6, 7, 8].map Request.get ++
      letAllIn [10]).foldl (fun (q : LiveQueue Nat Nat) request => (q.perform request).2)
        (.new 9)).peek? 0 = none := by
  decide

end Table

end FsTrace
