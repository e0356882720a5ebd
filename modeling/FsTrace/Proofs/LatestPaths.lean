import FsTrace.Proofs.LiveQueue
import FsTrace.Proofs.ParkedCalls
import FsTrace.Proofs.PathOutcome
import Mathlib.Data.List.DropRight

/-!
# The latest whole paths

Every path that is stored whole comes under a key of its own, and its table is only read. So no
entry is ever marked as used, and the one that has to make room is always the oldest: the table
holds the latest paths, as many as there is room for.

* `LiveQueue.insert_of_unused`: without marks, letting a key in is first in, first out;
* `Table.live_foldl_insert`: a table into which different keys were let, and
  `Table.peek?_eq_some_iff`, what it holds in terms of its entries in line;
* `Resolver.Query`, an entry whose path is asked for; `Resolver.after`: a resolver after some
  queries;
* `Resolver.holds_latest`: the table of whole paths after any queries under different keys.
-/

namespace FsTrace

/-- The latest items of the latest ones. -/
theorem rtake_rtake {α : Type} (items : List α) {m n : Nat} (h : m ≤ n) :
    (items.rtake n).rtake m = items.rtake m := by
  simp only [List.rtake, List.drop_drop, List.length_drop]
  congr 1
  omega

/-! ### First in, first out -/

namespace LiveQueue

variable {κ ν : Type} [BEq κ] {q : LiveQueue κ ν} {key : κ}

/-- Where no entry is used, a new key takes the place of the oldest one, if there is no room for
both. -/
theorem insert_of_unused (hpos : 0 < q.capacity) (hsize : q.size ≤ q.capacity)
    (hunused : ∀ w ∈ q.waiting, w.used = false) (habsent : q.peek? key = none) (value : ν) :
    (q.insert key value).2 =
      { q with
        waiting := q.waiting.rtake (q.capacity - 1) ++ [⟨key, value, false⟩]
        evictions := q.evictions + (q.size + 1 - q.capacity) } := by
  rw [size] at hsize ⊢
  rw [insert, if_neg (by simp [habsent]), makeRoom, size]
  by_cases hfull : q.capacity ≤ q.waiting.length
  · obtain ⟨first, rest, hwaiting⟩ := List.exists_cons_of_length_pos (hpos.trans_le hfull)
    have hleading : q.waiting.takeWhile (·.used) = [] := by
      rw [hwaiting, List.takeWhile_cons_of_neg]
      simp [hunused first (hwaiting ▸ List.mem_cons_self)]
    have hrest : q.waiting.rtake (q.capacity - 1) = rest := by
      have hlength : q.waiting.length - (q.capacity - 1) = 1 := by omega
      rw [List.rtake, hlength, hwaiting, List.drop_succ_cons, List.drop_zero]
    rw [if_pos hfull, hleading, hrest, show q.waiting.length + 1 - q.capacity = 1 by omega]
    simp only [List.length_nil, Nat.zero_min, List.drop_zero, List.take_zero, List.map_nil,
      List.append_nil, hwaiting, append]
  · have hall : q.waiting.rtake (q.capacity - 1) = q.waiting := by
      rw [List.rtake, show q.waiting.length - (q.capacity - 1) = 0 by omega, List.drop_zero]
    rw [if_neg hfull, hall, show q.waiting.length + 1 - q.capacity = 0 by omega]
    rfl

end LiveQueue

namespace Table

variable {κ ν : Type} [BEq κ] [Hashable κ] {t : Table κ ν} {key : κ} {value : ν}

/-- What a table holds, in terms of its entries in line. -/
theorem peek?_eq_some_iff (hv : t.Valid) :
    t.peek? key = some value ↔ ∃ w ∈ t.live.waiting, w.key = key ∧ w.value = value := by
  simp only [peek?, Option.map_eq_some_iff, ← mem_items hv, live, List.mem_map]
  constructor
  · rintro ⟨entry, hmem, rfl⟩
    exact ⟨_, ⟨_, hmem, rfl⟩, rfl, rfl⟩
  · rintro ⟨_, ⟨item, hmem, rfl⟩, rfl, rfl⟩
    exact ⟨item.2, hmem, rfl⟩

/-- A table into which different keys were let, one after another, holds the latest of them. -/
theorem live_foldl_insert [LawfulBEq κ] (capacity : Nat) {items : List (κ × ν)}
    (hdistinct : (items.map (·.1)).Nodup) :
    let t := items.foldl (fun t item => (t.insert item.1 item.2).2) (new capacity)
    t.Valid ∧ t.live =
      { capacity := max 1 capacity
        waiting := (items.rtake (max 1 capacity)).map fun item => ⟨item.1, item.2, false⟩
        evictions := items.length - max 1 capacity } := by
  induction items using List.reverseRecOn with
  | nil => exact ⟨valid_new capacity, by simp [LiveQueue.new]⟩
  | append_singleton items item ih =>
    rw [List.map_append, List.nodup_append] at hdistinct
    obtain ⟨hitems, -, hnew⟩ := hdistinct
    obtain ⟨hvalid, hlive⟩ := ih hitems
    set t := items.foldl (fun t item => (t.insert item.1 item.2).2) (new capacity : Table κ ν)
    have habsent : t.peek? item.1 = none := by
      by_contra hpresent
      obtain ⟨value, hvalue⟩ := Option.ne_none_iff_exists'.1 hpresent
      obtain ⟨w, hw, hkey, -⟩ := (peek?_eq_some_iff hvalid).1 hvalue
      rw [hlive, List.mem_map] at hw
      obtain ⟨earlier, hearlier, rfl⟩ := hw
      exact hnew _ (List.mem_map_of_mem (List.mem_of_mem_drop hearlier)) item.1
        (List.mem_map_of_mem List.mem_cons_self) hkey
    have hcapacity : t.live.capacity = max 1 capacity := congrArg LiveQueue.capacity hlive
    have hsize : t.live.size = min items.length (max 1 capacity) := by
      rw [LiveQueue.size, hlive, List.length_map, List.rtake, List.length_drop]
      omega
    have hunused : ∀ w ∈ t.live.waiting, w.used = false := by
      rw [hlive]
      rintro w hw
      obtain ⟨_, -, rfl⟩ := List.mem_map.1 hw
      rfl
    have hinsert := congrArg Prod.snd (live_insert hvalid item.1 item.2)
    rw [LiveQueue.insert_of_unused (by omega) (by omega) hunused
      ((peek?_live hvalid _).trans habsent), hcapacity, hsize, hlive] at hinsert
    simp only [List.foldl_append, List.foldl_cons, List.foldl_nil]
    refine ⟨valid_insert hvalid item.1 item.2, hinsert.trans ?_⟩
    -- of the latest ones, all but the oldest stay
    obtain ⟨room, hroom⟩ : ∃ room, max 1 capacity = room + 1 := ⟨max 1 capacity - 1, by omega⟩
    have hstay : ((items.rtake (room + 1)).map fun item =>
        (⟨item.1, item.2, false⟩ : Waiting κ ν)).rtake room =
        (items.rtake room).map fun item => ⟨item.1, item.2, false⟩ := by
      rw [← rtake_rtake items room.le_succ, List.rtake, List.length_map, ← List.map_drop,
        ← List.rtake]
    simp only [hroom, Nat.add_sub_cancel, hstay, List.rtake_concat_succ, List.map_append,
      List.map_cons, List.map_nil, List.length_append, List.length_singleton]
    congr 1
    omega

end Table

/-! ### Queries -/

namespace Resolver

/-- An entry whose path is asked for, with the key that is drawn for it and the buffer that is
handed in. -/
structure Query where
  view : View
  drawn : DrawnKey
  paths : PathBuffer
  entry : Handle
  leaf : Location

/-- The bytes of the path as they are built in the buffer, after it was emptied. -/
def Query.built (q : Query) : Bytes :=
  (writePath q.view q.paths.reset q.entry wholePathSize).paths.filled

/-- A resolver answers a query. -/
def answer (r : Resolver) (q : Query) : Resolution :=
  r.resolve q.view q.drawn q.paths q.entry q.leaf

/-- A resolver after some queries. -/
def after (r : Resolver) (qs : List Query) : Resolver :=
  qs.foldl (fun r q => (r.answer q).resolver) r

/-- What is stored for a query: a path under the key that was drawn for it. -/
def Query.stored (q : Query) : UInt32 × WholePath := (q.drawn.key, wholePath q.view q.entry)

variable {table : WholePaths} {q : Query} {qs : List Query} {path : WholePath}

/-- What is stored is all that was built, without another cut. -/
theorem bytes_eq_built_iff : path.bytes = q.built ↔ path = q.stored.2 := by
  have hbuilt : q.built = (wholePath q.view q.entry).bytes := by
    rw [bytes_wholePath]
    exact filled_writePath _ _ _ _
  rw [hbuilt, Query.stored]
  constructor
  · intro hbytes
    cases path
    exact congrArg WholePath.mk hbytes
  · exact congrArg WholePath.bytes

theorem length_built : q.built.length = q.stored.2.length :=
  congrArg List.length (bytes_eq_built_iff.2 rfl).symm

theorem after_singleFragment (table : WholePaths) (qs : List Query) :
    (singleFragment table).after qs =
      singleFragment ((qs.map Query.stored).foldl
        (fun table item => (table.insert item.1 item.2).2) table) := by
  induction qs generalizing table with
  | nil => rfl
  | cons q qs ih =>
    have hfirst : ((singleFragment table).answer q).resolver = _ := resolve_singleFragment table
    rw [after, List.foldl_cons, hfirst]
    exact ih _

/-- A query is answered with its key and the length of what was built, and leaves the buffer empty,
whatever it held. -/
theorem answer_singleFragment (table : WholePaths) (q : Query) :
    ((singleFragment table).answer q).path = .keyed q.drawn.key q.built.length ∧
      q.built.length ≤ wholePathSize ∧ ((singleFragment table).answer q).paths.filled = [] := by
  refine ⟨?_, ?_, rfl⟩
  · rw [length_built]
    exact path_resolve
  · rw [length_built, Query.stored, WholePath.length, bytes_wholePath]
    exact length_pathBytes_le_whole q.view q.entry

/-- **The latest paths.** After any queries under different keys, the table of whole paths holds
those of the latest ones, as many as it has room for, and has dropped all others. Each path is just
what was built for its query, with the length that was answered, and every answer leaves the buffer
empty. -/
theorem holds_latest (capacity : Nat) (qs : List Query)
    (hdistinct : (qs.map (·.drawn.key)).Nodup) :
    ∃ table, (singleFragment (.new capacity)).after qs = singleFragment table ∧
      (∀ key path, table.peek? key = some path ↔
        ∃ q ∈ qs.rtake (max 1 capacity), q.drawn.key = key ∧ path.bytes = q.built) ∧
      table.size = min qs.length (max 1 capacity) ∧
      table.evictions = qs.length - table.size ∧
      ∀ before q rest, qs = before ++ q :: rest →
        let answer := ((singleFragment (.new capacity)).after before).answer q
        answer.path = .keyed q.drawn.key q.built.length ∧ q.built.length ≤ wholePathSize ∧
          answer.paths.filled = [] := by
  have hkeys : ((qs.map Query.stored).map (·.1)).Nodup := by
    rw [List.map_map]
    exact hdistinct
  obtain ⟨hvalid, hlive⟩ := Table.live_foldl_insert capacity hkeys
  have hsize := (Table.size_live hvalid).symm
  rw [hlive, LiveQueue.size, List.length_map, List.rtake, List.length_drop, List.length_map,
    Nat.sub_sub_eq_min] at hsize
  refine ⟨_, after_singleFragment _ qs, fun key path => ?_, ?_, ?_, fun before q rest _ => ?_⟩
  · rw [Table.peek?_eq_some_iff hvalid, hlive]
    have hlatest : (qs.map Query.stored).rtake (max 1 capacity) =
        (qs.rtake (max 1 capacity)).map Query.stored := by
      rw [List.rtake, List.length_map, ← List.map_drop, ← List.rtake]
    simp only [hlatest, List.mem_map, bytes_eq_built_iff]
    constructor
    · rintro ⟨_, ⟨_, ⟨q, hq, rfl⟩, rfl⟩, rfl, rfl⟩
      exact ⟨q, hq, rfl, rfl⟩
    · rintro ⟨q, hq, rfl, rfl⟩
      exact ⟨_, ⟨_, ⟨q, hq, rfl⟩, rfl⟩, rfl, rfl⟩
  · exact hsize
  · have hevictions : Table.evictions _ = (qs.map Query.stored).length - max 1 capacity :=
      congrArg LiveQueue.evictions hlive
    rw [hevictions, hsize, List.length_map]
    omega
  · rw [after_singleFragment]
    exact answer_singleFragment _ q

/-- Asks for the path of an entry above itself. -/
def Query.endless (key : UInt32) (hkey : key ≠ 0) : Query :=
  { view := .still carousel, drawn := ⟨key, hkey⟩, paths := .empty, entry := ⟨0⟩, leaf := ⟨0, 1⟩ }

/-- Of three paths, a table with room for two holds the last two. -/
theorem holds_latest_endless :
    ∃ table, (singleFragment (.new 2)).after
        [.endless 7 (by decide), .endless 9 (by decide), .endless 8 (by decide)] =
          singleFragment table ∧
      table.peek? 7 = none ∧ (table.peek? 9).isSome ∧ (table.peek? 8).isSome ∧ table.size = 2 ∧
      table.evictions = 1 := by
  obtain ⟨table, hafter, hholds, hsize, hevictions, -⟩ := holds_latest 2
    [.endless 7 (by decide), .endless 9 (by decide), .endless 8 (by decide)]
    (by simp [Query.endless])
  have hlast : ∀ key path, table.peek? key = some path ↔
      (9 = key ∨ 8 = key) ∧ path.bytes = (Query.endless 9 (by decide)).built := by
    intro key path
    rw [hholds]
    simp [List.rtake, Query.endless, Query.built, exists_or, or_and_right]
  refine ⟨table, hafter, Option.eq_none_iff_forall_ne_some.2 fun path hpath => ?_,
    Option.isSome_iff_exists.2 ⟨⟨_⟩, (hlast _ _).2 ⟨.inl rfl, rfl⟩⟩,
    Option.isSome_iff_exists.2 ⟨⟨_⟩, (hlast _ _).2 ⟨.inr rfl, rfl⟩⟩, hsize, ?_⟩
  · exact absurd ((hlast _ _).1 hpath).1 (by decide)
  · rw [hevictions, hsize]
    rfl

end Resolver

end FsTrace
