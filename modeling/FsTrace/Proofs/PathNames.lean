import FsTrace.Proofs.FixedTree
import FsTrace.Proofs.PathBytes

/-!
# Names of written paths

Which names the bytes of a path hold, and when these are all names on the way up.

* `Bytes.segments_flatMap_segment`: names that were written one after another can be read back;
* `pathNames`: the names that a path writes, and `segments_pathBytes`: they can be read back from
  its bytes;
* `pathNames_of_le`: a path in less space is a front of the path in more, and the same path if it is
  not cut short;
* `Ascends`: entries up to the first boundary. The entries of a path that is not cut short are such
  (`ascends_climb`), and with room for all their names none is cut (`Ascends.cutShort_eq`);
* `Accessor.ReadsNames`, `Accessor.NulFree`: names are read as they are, and hold no NUL.
-/

namespace FsTrace

/-! ### Reading names back -/

namespace Bytes

/-- A piece without separators ends at the next one. -/
theorem pieces_append {separator : UInt8} {piece : Bytes} (h : separator ∉ piece) (rest : Bytes) :
    pieces separator (piece ++ separator :: rest) = piece :: pieces separator rest := by
  induction piece with
  | nil => rw [List.nil_append, pieces, if_pos rfl]
  | cons b piece ih =>
    obtain ⟨hb, hpiece⟩ := not_or.1 (mt List.mem_cons.2 h)
    rw [List.cons_append, pieces, if_neg (Ne.symm hb), ih hpiece]

theorem pieces_flatMap_segment {names : List Bytes}
    (h : ∀ name ∈ names, 0 ∉ name ∧ name.length < nameSize) :
    pieces 0 (names.flatMap PathBuffer.segment) = names ++ [[]] := by
  induction names with
  | nil => rfl
  | cons name names ih =>
    obtain ⟨⟨hnul, hlength⟩, hnames⟩ := List.forall_mem_cons.1 h
    have hsegment : PathBuffer.segment name = name ++ [0] := by
      rw [PathBuffer.segment, List.take_of_length_le (Nat.le_sub_one_of_lt hlength)]
    rw [List.flatMap_cons, hsegment, List.append_assoc, List.singleton_append, pieces_append hnul,
      ih hnames, List.cons_append]

/-- Names that were written one after another can be read back. -/
theorem segments_flatMap_segment {names : List Bytes}
    (h : ∀ name ∈ names, name ≠ [] ∧ 0 ∉ name ∧ name.length < nameSize) :
    segments (names.flatMap PathBuffer.segment) = names := by
  have hkept : names.filter (! ·.isEmpty) = names :=
    List.filter_eq_self.2 fun name hname => by simpa using (h name hname).1
  rw [segments, pieces_flatMap_segment fun name hname => (h name hname).2, List.filter_append,
    hkept]
  exact List.append_nil names

end Bytes

/-! ### The names of a path -/

/-- The names that a path writes from a position of a buffer on, see `pathBytes`. -/
def pathNames (limit start : Nat) : List Level → List Bytes
  | [] => []
  | level :: above =>
    if level.name = [] ∨ min limit pathBufferSize < start + nameSize then []
    else
      level.name :: if level.isBoundary then []
        else pathNames limit (start + (PathBuffer.segment level.name).length) above

variable {limit limit' start depth : Nat} {level : Level} {levels above : List Level} {name : Bytes}

theorem name_ne_nil_of_inner (h : level.isBoundary = false) : level.name ≠ [] := by
  intro hname
  simp [Level.isBoundary, hname] at h

/-- A path ends at an entry without a name, or where there is no room for one. -/
theorem pathNames_of_stop
    (h : level.name = [] ∨ min limit pathBufferSize < start + nameSize) (above : List Level) :
    pathNames limit start (level :: above) = [] := if_pos h

theorem pathNames_of_boundary (hname : level.name ≠ [])
    (hroom : start + nameSize ≤ min limit pathBufferSize) (h : level.isBoundary = true)
    (above : List Level) : pathNames limit start (level :: above) = [level.name] := by
  rw [pathNames, if_neg (not_or.2 ⟨hname, Nat.not_lt.2 hroom⟩), if_pos h]

theorem pathNames_of_inner (hroom : start + nameSize ≤ min limit pathBufferSize)
    (h : level.isBoundary = false) (above : List Level) :
    pathNames limit start (level :: above) = level.name ::
      pathNames limit (start + (PathBuffer.segment level.name).length) above := by
  rw [pathNames, if_neg (not_or.2 ⟨name_ne_nil_of_inner h, Nat.not_lt.2 hroom⟩),
    if_neg (ne_true_of_eq_false h)]

theorem cutShort_of_unnamed (h : level.name = []) (above : List Level) :
    cutShort limit start (level :: above) = false := if_pos h

theorem cutShort_of_full (hname : level.name ≠ [])
    (h : min limit pathBufferSize < start + nameSize) (above : List Level) :
    cutShort limit start (level :: above) = true := by
  rw [cutShort, if_neg hname, if_pos h]

theorem cutShort_of_boundary (hroom : start + nameSize ≤ min limit pathBufferSize)
    (h : level.isBoundary = true) (above : List Level) :
    cutShort limit start (level :: above) = false := by
  rw [cutShort, if_neg (Nat.not_lt.2 hroom), if_pos h, ite_self]

theorem cutShort_of_inner (hroom : start + nameSize ≤ min limit pathBufferSize)
    (h : level.isBoundary = false) (above : List Level) :
    cutShort limit start (level :: above) =
      cutShort limit (start + (PathBuffer.segment level.name).length) above := by
  rw [cutShort, if_neg (name_ne_nil_of_inner h), if_neg (Nat.not_lt.2 hroom),
    if_neg (ne_true_of_eq_false h)]

/-- Where a path is not cut short, there was room for the name. -/
theorem room_of_not_cutShort (hname : level.name ≠ [])
    (h : cutShort limit start (level :: above) = false) :
    start + nameSize ≤ min limit pathBufferSize := by
  by_contra hfull
  rw [cutShort_of_full hname (Nat.not_le.1 hfull)] at h
  cases h

/-- The bytes of a path are the names that it writes, one after another. -/
theorem pathBytes_eq (limit start : Nat) (levels : List Level) :
    pathBytes limit start levels = (pathNames limit start levels).flatMap PathBuffer.segment := by
  induction levels generalizing start with
  | nil => rfl
  | cons level above ih =>
    rw [pathBytes, pathNames]
    split
    · rfl
    · rw [List.flatMap_cons]
      simp only
      split
      · rfl
      · rw [ih]

theorem mem_pathNames (h : name ∈ pathNames limit start levels) :
    name ≠ [] ∧ ∃ level ∈ levels, level.name = name := by
  induction levels generalizing start with
  | nil => cases h
  | cons level above ih =>
    rw [pathNames] at h
    split at h
    · cases h
    · next hroom =>
      rcases List.mem_cons.1 h with rfl | h
      · exact ⟨fun hname => hroom (Or.inl hname), level, List.mem_cons_self, rfl⟩
      · split at h
        · cases h
        · obtain ⟨hname, other, hother, heq⟩ := ih h
          exact ⟨hname, other, List.mem_cons_of_mem _ hother, heq⟩

/-- The names of a path can be read back from its bytes. -/
theorem segments_pathBytes (h : ∀ level ∈ levels, 0 ∉ level.name ∧ level.name.length < nameSize)
    (limit start : Nat) :
    Bytes.segments (pathBytes limit start levels) = pathNames limit start levels := by
  rw [pathBytes_eq, Bytes.segments_flatMap_segment]
  intro name hname
  obtain ⟨hne, level, hlevel, rfl⟩ := mem_pathNames hname
  exact ⟨hne, h level hlevel⟩

/-- A path ends with the NUL of a name. -/
theorem eq_zero_of_mem_getLast? {b : UInt8} (h : b ∈ (pathBytes limit start levels).getLast?) :
    b = 0 := by
  rw [pathBytes_eq] at h
  rcases List.eq_nil_or_concat (pathNames limit start levels) with hnil | ⟨names, name, hnames⟩
  · rw [hnil] at h
    cases h
  · rw [hnames, List.concat_eq_append, List.flatMap_append, List.flatMap_singleton,
      PathBuffer.segment, ← List.append_assoc, List.getLast?_concat] at h
    exact (Option.some.inj h).symm

/-- A path in less space is a front of the path in more. If it is not cut short, neither is the
other, and the two are the same. -/
theorem pathNames_of_le (h : limit ≤ limit') (start : Nat) (levels : List Level) :
    pathNames limit start levels <+: pathNames limit' start levels ∧
      (cutShort limit start levels = false → cutShort limit' start levels = false ∧
        pathNames limit start levels = pathNames limit' start levels) := by
  induction levels generalizing start with
  | nil => exact ⟨List.prefix_rfl, fun hwhole => ⟨hwhole, rfl⟩⟩
  | cons level above ih =>
    by_cases hname : level.name = []
    · rw [pathNames_of_stop (Or.inl hname), pathNames_of_stop (Or.inl hname)]
      exact ⟨List.prefix_rfl, fun _ => ⟨cutShort_of_unnamed hname above, rfl⟩⟩
    by_cases hfull : min limit pathBufferSize < start + nameSize
    · rw [pathNames_of_stop (Or.inr hfull), cutShort_of_full hname hfull]
      exact ⟨List.nil_prefix, fun hwhole => absurd hwhole (by simp)⟩
    have hroom : start + nameSize ≤ min limit pathBufferSize := Nat.not_lt.1 hfull
    have hroom' : start + nameSize ≤ min limit' pathBufferSize :=
      hroom.trans (min_le_min_right _ h)
    cases hboundary : level.isBoundary with
    | true =>
      rw [pathNames_of_boundary hname hroom hboundary, pathNames_of_boundary hname hroom' hboundary,
        cutShort_of_boundary hroom' hboundary]
      exact ⟨List.prefix_rfl, fun _ => ⟨rfl, rfl⟩⟩
    | false =>
      obtain ⟨hfront, hwhole⟩ := ih (start + (PathBuffer.segment level.name).length)
      rw [pathNames_of_inner hroom hboundary, pathNames_of_inner hroom' hboundary,
        cutShort_of_inner hroom hboundary, cutShort_of_inner hroom' hboundary]
      exact ⟨List.cons_prefix_cons.2 ⟨rfl, hfront⟩,
        fun h => ⟨(hwhole h).1, congrArg (level.name :: ·) (hwhole h).2⟩⟩

/-! ### Entries up to a boundary -/

/-- Entries on the way up to the first boundary: each tells the inode of the one above it. -/
inductive Ascends : List Level → Prop
  | boundary {level : Level} : level.isBoundary = true → Ascends [level]
  | step {level next : Level} {above : List Level} :
    level.isBoundary = false → level.parentInode = next.inode → Ascends (next :: above) →
      Ascends (level :: next :: above)

theorem Ascends.exists_cons (h : Ascends levels) : ∃ level above, levels = level :: above := by
  cases h <;> exact ⟨_, _, rfl⟩

/-- The inode of the entry with which a climb starts. -/
theorem inode_of_climb {a : Accessor} {d : Handle} {buffer : NameBuffer}
    (h : climb (.still a) d buffer depth = level :: above) : level.inode = a.inodeOf d := by
  cases depth with
  | zero => cases h
  | succ depth =>
    rw [climb_still] at h
    split at h
    · rw [← (List.cons.inj h).1]
      rfl
    · rw [← (List.cons.inj h).1]
      rfl

/-- A path that is not cut short has visited a boundary. -/
theorem ascends_climb {a : Accessor} {d : Handle} {buffer : NameBuffer}
    (h : cutShort limit start (climb (.still a) d buffer depth) = false) :
    Ascends (climb (.still a) d buffer depth) := by
  induction depth generalizing d buffer start with
  | zero => cases h
  | succ depth ih =>
    rw [climb_still] at h ⊢
    by_cases hboundary : (readLevel a d buffer).1.isBoundary = true
    · rw [if_pos hboundary]
      exact .boundary hboundary
    · rw [if_neg hboundary] at h ⊢
      have hinner := Bool.eq_false_of_not_eq_true hboundary
      have hroom := room_of_not_cutShort (name_ne_nil_of_inner hinner) h
      rw [cutShort_of_inner hroom hinner] at h
      have habove := ih h
      obtain ⟨next, above, hclimb⟩ := habove.exists_cons
      rw [hclimb] at habove ⊢
      exact .step hinner (inode_of_climb hclimb).symm habove

/-- If no part is missing, the names are those written, and an empty one if the last entry has
none. -/
theorem Ascends.map_name (h : Ascends levels) (hwhole : cutShort limit start levels = false) :
    levels.map (·.name) = pathNames limit start levels ++
      if levels.getLast?.any (·.name.isEmpty) then [[]] else [] := by
  induction h generalizing start with
  | @boundary level hboundary =>
    by_cases hname : level.name = []
    · rw [pathNames_of_stop (Or.inl hname)]
      simp [hname]
    · rw [pathNames_of_boundary hname (room_of_not_cutShort hname hwhole) hboundary]
      simp [hname]
  | @step level next above hinner _ _ ih =>
    have hroom := room_of_not_cutShort (name_ne_nil_of_inner hinner) hwhole
    rw [cutShort_of_inner hroom hinner] at hwhole
    rw [List.map_cons, ih hwhole, List.getLast?_cons_cons, pathNames_of_inner hroom hinner,
      List.cons_append]

/-- If all entries have names, all of these are written. -/
theorem Ascends.pathNames_eq (h : Ascends levels) (hwhole : cutShort limit start levels = false)
    (hnamed : [] ∉ levels.map (·.name)) :
    pathNames limit start levels = levels.map (·.name) := by
  rw [h.map_name hwhole] at hnamed ⊢
  split
  · next hlast => simp [hlast] at hnamed
  · exact (List.append_nil _).symm

/-- With room for a name of any length behind all names but the last, none is cut. -/
theorem Ascends.cutShort_eq (h : Ascends levels)
    (hroom : start + ((levels.map (·.name)).dropLast.map (·.length + 1)).sum + nameSize ≤
      min limit pathBufferSize) : cutShort limit start levels = false := by
  induction h generalizing start with
  | @boundary level hboundary =>
    exact cutShort_of_boundary (by simpa using hroom) hboundary []
  | @step level next above hinner _ _ ih =>
    have hsegment : (PathBuffer.segment level.name).length ≤ level.name.length + 1 := by
      rw [PathBuffer.segment, List.length_append, List.length_singleton]
      exact Nat.succ_le_succ (List.length_take_le' _ _)
    rw [List.map_cons, List.map_cons, List.dropLast_cons_cons, List.map_cons, List.sum_cons]
      at hroom
    rw [cutShort_of_inner (by omega) hinner]
    refine ih ?_
    rw [List.map_cons]
    omega

/-! ### Names as they are read -/

/-- A read of a name says how many bytes it wrote, and writes no more than fit. -/
def Accessor.ReadsNames (a : Accessor) : Prop :=
  ∀ d size read, a.name d size = some read →
    read.claimed = read.written.length ∧ read.written.length ≤ size

/-- No name holds a NUL. -/
def Accessor.NulFree (a : Accessor) : Prop :=
  ∀ d size read, a.name d size = some read → 0 ∉ read.written

/-- A name as it is read has no NUL, and its own length. -/
theorem fst_readName_good {a : Accessor} (hreads : a.ReadsNames) (hnul : a.NulFree) (d : Handle)
    (buffer : NameBuffer) :
    0 ∉ (readName a d buffer).1 ∧ (readName a d buffer).1.length < nameSize := by
  cases hread : a.name d (nameSize - 1) with
  | none =>
    simp only [readName, hread]
    exact ⟨List.not_mem_nil, by decide⟩
  | some read =>
    obtain ⟨hclaimed, hlength⟩ := hreads d _ read hread
    have hfront : a.name d (nameSize - 1) = some ⟨read.written.take (nameSize - 1),
        (read.written.take (nameSize - 1)).length⟩ := by
      rw [List.take_of_length_le hlength, ← hclaimed, hread]
    rw [FixedTree.fst_readName hfront, List.take_of_length_le hlength]
    exact ⟨hnul d _ read hread, Nat.lt_of_le_sub_one (by decide) hlength⟩

theorem name_of_mem_climb {a : Accessor} (hreads : a.ReadsNames) (hnul : a.NulFree) {d : Handle}
    {buffer : NameBuffer} (h : level ∈ climb (.still a) d buffer depth) :
    0 ∉ level.name ∧ level.name.length < nameSize := by
  induction depth generalizing d buffer with
  | zero => cases h
  | succ depth ih =>
    have hown := fst_readName_good hreads hnul d buffer
    rw [climb_still] at h
    split at h
    · rw [List.mem_singleton.1 h]
      exact hown
    · rcases List.mem_cons.1 h with rfl | h
      · exact hown
      · exact ih h

end FsTrace
