import FsTrace.Proofs.PathNames

/-!
# What writing a path does

The bytes that a path adds to a buffer, and whether a part of it is missing, told from what can be
read of the entries, one after another. Anything may change between two reads, every read may fail,
and entries may be above each other in a circle.

* `Accessor.Copies`: what is asked of a read of a name;
* `View.nameAt`, `View.EndsAt`, `View.visited`: the names that are seen on the way up, and the
  entries, up to the first one that ends it or to the greatest depth. `climb_later`: these are the
  entries of an ascent;
* `WrittenFront`: which of the names are written, and why the next one is not;
* `forall_inner_iff`: when the way up is as long as the depth allows;
* `writePath_outcome`: all that writing a path does.
-/

namespace FsTrace

/-- A read of a name copies as much of it as fits, and says how many bytes these are. It may also
fail. -/
def Accessor.Copies (a : Accessor) (name : Handle → Bytes) : Prop :=
  ∀ d size read, a.name d size = some read →
    read.written = (name d).take size ∧ read.claimed = read.written.length

namespace View

variable (view : View) (names : Nat → Handle → Bytes)

/-- The name that an entry shows at a point in time, none if it cannot be read. -/
def nameAt (n : Nat) (d : Handle) : Bytes :=
  if ((view n).name d (nameSize - 1)).isSome then names n d else []

/-- Nothing is visited above an entry whose parent cannot be read or is the entry itself, that shares
its parent's inode, that shows no name, or that is named like a root. -/
def EndsAt (n : Nat) (d : Handle) : Prop :=
  (view n).parent d = none ∨ (view n).parent d = some d ∨
    (view n).inodeOf d = (view n).parentInodeOf d ∨
    view.nameAt names n d = [] ∨ (view.nameAt names n d).head? = some Bytes.slash

instance (n : Nat) (d : Handle) : Decidable (view.EndsAt names n d) :=
  inferInstanceAs (Decidable (_ ∨ _))

/-- The entries from `d` upwards, each read one point in time after the one below it. -/
def visited (n : Nat) (d : Handle) : (depth : Nat) → List Handle
  | 0 => []
  | depth + 1 =>
    d :: if view.EndsAt names n d then [] else visited (n + 1) ((view n).parentOf d) depth

/-- What is read of an entry. -/
def levelAt (n : Nat) (d : Handle) : Level where
  entry := d
  name := (view.nameAt names n d).take (nameSize - 1)
  inode := (view n).inodeOf d
  parent := (view n).parentOf d
  parentInode := (view n).parentInodeOf d

variable {view names} {n depth : Nat} {d e : Handle}

/-- The way up ends before the greatest depth only at an entry that ends it. -/
theorem length_visited_of_inner
    (h : ∀ k e, (view.visited names n d depth)[k]? = some e → ¬ view.EndsAt names (n + k) e) :
    (view.visited names n d depth).length = depth := by
  induction depth generalizing n d with
  | zero => rfl
  | succ depth ih =>
    have hinner : ¬ view.EndsAt names n d := h 0 d rfl
    rw [visited, if_neg hinner] at h ⊢
    rw [List.length_cons, ih fun k e he => ?_]
    have habove := h (k + 1) e he
    rwa [← Nat.add_assoc, Nat.add_right_comm] at habove

theorem take_name_eq_nil (name : Bytes) : name.take (nameSize - 1) = [] ↔ name = [] := by
  simp [nameSize]

theorem isBoundary_levelAt (n : Nat) (d : Handle) :
    (view.levelAt names n d).isBoundary = true ↔ view.EndsAt names n d := by
  have hhead : ((view.nameAt names n d).take (nameSize - 1)).head? =
      (view.nameAt names n d).head? := by
    rw [List.head?_take, if_neg (by simp [nameSize])]
  have hparent : (view n).parentOf d = d ↔
      (view n).parent d = none ∨ (view n).parent d = some d := by
    rw [Accessor.parentOf]
    cases (view n).parent d <;> simp
  simp only [Level.isBoundary, levelAt, EndsAt, decide_eq_true_eq, hhead, hparent,
    List.isEmpty_iff, take_name_eq_nil, or_assoc]

theorem readLevel_eq (h : (view n).Copies (names n)) (d : Handle) (buffer : NameBuffer) :
    (readLevel (view n) d buffer).1 = view.levelAt names n d := by
  have hname : (readName (view n) d buffer).1 =
      (view.nameAt names n d).take (nameSize - 1) := by
    cases hread : (view n).name d (nameSize - 1) with
    | none => simp [readName, nameAt, hread]
    | some read =>
      obtain ⟨hwritten, hclaimed⟩ := h d _ read hread
      have hfront : (view n).name d (nameSize - 1) = some ⟨(names n d).take (nameSize - 1),
          ((names n d).take (nameSize - 1)).length⟩ := by
        rw [hread, ← hwritten, ← hclaimed]
      rw [FixedTree.fst_readName hfront, nameAt, hread, Option.isSome_some, if_pos rfl]
  rw [levelAt, ← hname]
  rfl

/-- An ascent visits the entries that are seen on the way up. -/
theorem climb_later (h : ∀ n, (view n).Copies (names n)) (n : Nat) (d : Handle)
    (buffer : NameBuffer) (depth : Nat) :
    climb (view.later n) d buffer depth =
      (view.visited names n d depth).mapIdx fun k e => view.levelAt names (n + k) e := by
  induction depth generalizing n d buffer with
  | zero => rfl
  | succ depth ih =>
    have hlevel := readLevel_eq (h n) d buffer
    have hlater : (view.later n).later 1 = view.later (n + 1) :=
      funext fun k => congrArg view (Nat.add_assoc n 1 k).symm
    have hshift : (fun k e => view.levelAt names (n + (k + 1)) e) =
        fun k e => view.levelAt names (n + 1 + k) e := by
      funext k e
      rw [Nat.add_right_comm n 1 k, Nat.add_assoc]
    rw [climb, visited, List.mapIdx_cons, hshift]
    simp only [later_apply, Nat.add_zero, hlevel, isBoundary_levelAt, hlater]
    split
    · rfl
    · rw [← ih]
      rfl

end View

/-! ### The names that are written -/

/-- Of some names, `count` are written from a position on: each of them is a name, and found room
before the limit. The next one is none, or finds no room. -/
structure WrittenFront (limit start : Nat) (names : List Bytes) (count : Nat) : Prop where
  count_le : count ≤ names.length
  named : ∀ k name, k < count → names[k]? = some name → name ≠ []
  room : ∀ k < count, start + ((names.take k).flatMap PathBuffer.segment).length + nameSize ≤
    min limit pathBufferSize
  stop : ∀ name, names[count]? = some name → name = [] ∨
    min limit pathBufferSize <
      start + ((names.take count).flatMap PathBuffer.segment).length + nameSize

variable {limit start count : Nat} {name : Bytes} {names : List Bytes} {levels : List Level}

theorem flatMap_segment_take (names : List Bytes) :
    (names.map (·.take (nameSize - 1))).flatMap PathBuffer.segment =
      names.flatMap PathBuffer.segment := by
  have hcut : (fun name : Bytes => PathBuffer.segment (name.take (nameSize - 1))) =
      PathBuffer.segment := funext fun name => by
    rw [PathBuffer.segment, PathBuffer.segment, List.take_take, min_self]
  rw [List.flatMap_map, hcut]

namespace WrittenFront

theorem nil (limit start : Nat) : WrittenFront limit start [] 0 :=
  ⟨le_rfl, fun _ _ hk => absurd hk (Nat.not_lt_zero _), fun _ hk => absurd hk (Nat.not_lt_zero _),
    fun _ hname => absurd hname (by simp)⟩

/-- No name is written if the first one is none, or finds no room. -/
theorem stopped (h : name = [] ∨ min limit pathBufferSize < start + nameSize) (names : List Bytes) :
    WrittenFront limit start (name :: names) 0 := by
  refine ⟨Nat.zero_le _, fun _ _ hk => absurd hk (Nat.not_lt_zero _),
    fun _ hk => absurd hk (Nat.not_lt_zero _), fun name' hname' => ?_⟩
  obtain rfl := Option.some.inj hname'
  exact h

theorem cons (h : WrittenFront limit (start + (PathBuffer.segment name).length) names count)
    (hname : name ≠ []) (hroom : start + nameSize ≤ min limit pathBufferSize) :
    WrittenFront limit start (name :: names) (count + 1) := by
  have hlength : ∀ k, start + (((name :: names).take (k + 1)).flatMap PathBuffer.segment).length =
      start + (PathBuffer.segment name).length +
        ((names.take k).flatMap PathBuffer.segment).length := fun k => by
    rw [List.take_succ_cons, List.flatMap_cons, List.length_append, Nat.add_assoc]
  refine ⟨Nat.succ_le_succ h.count_le, ?_, ?_, fun name' hname' => ?_⟩
  · rintro (_ | k) name' hk hname'
    · obtain rfl := Option.some.inj hname'
      exact hname
    · exact h.named k name' (Nat.lt_of_succ_lt_succ hk) hname'
  · rintro (_ | k) hk
    · exact hroom
    · rw [hlength]
      exact h.room k (Nat.lt_of_succ_lt_succ hk)
  · rw [hlength]
    exact h.stop name' hname'

/-- The part of the names that a path sees says as much. -/
theorem of_map_take (h : WrittenFront limit start (names.map (·.take (nameSize - 1))) count) :
    WrittenFront limit start names count := by
  have hbytes : ∀ k, ((names.map (·.take (nameSize - 1))).take k).flatMap PathBuffer.segment =
      (names.take k).flatMap PathBuffer.segment := fun k => by
    rw [← List.map_take, flatMap_segment_take]
  refine ⟨h.count_le.trans_eq (List.length_map _), fun k name hk hname => ?_, fun k hk => ?_,
    fun name hname => ?_⟩
  · rw [ne_eq, ← View.take_name_eq_nil]
    exact h.named k _ hk (by rw [List.getElem?_map, hname]; rfl)
  · rw [← hbytes]
    exact h.room k hk
  · rw [← hbytes, ← View.take_name_eq_nil]
    exact h.stop _ (by rw [List.getElem?_map, hname]; rfl)

end WrittenFront

/-- How far a path is written, given entries of which only the last can be a boundary. -/
theorem exists_writtenFront (hinner : ∀ level ∈ levels.dropLast, level.isBoundary = false)
    (start : Nat) : ∃ count, WrittenFront limit start (levels.map (·.name)) count ∧
      pathNames limit start levels = (levels.map (·.name)).take count ∧
      (cutShort limit start levels = true ↔
        (∃ name, (levels.map (·.name))[count]? = some name ∧ name ≠ []) ∨
          ∀ level ∈ levels, level.isBoundary = false) := by
  induction levels generalizing start with
  | nil =>
    refine ⟨0, .nil limit start, rfl, iff_of_true rfl (Or.inr ?_)⟩
    simp
  | cons level above ih =>
    by_cases hname : level.name = []
    · -- an entry without a name is a boundary
      have hboundary : level.isBoundary = true := by simp [Level.isBoundary, hname]
      refine ⟨0, .stopped (Or.inl hname) _, pathNames_of_stop (Or.inl hname) above, ?_⟩
      rw [cutShort_of_unnamed hname]
      simp [hname, hboundary]
    by_cases hfull : min limit pathBufferSize < start + nameSize
    · refine ⟨0, .stopped (Or.inr hfull) _, pathNames_of_stop (Or.inr hfull) above, ?_⟩
      rw [cutShort_of_full hname hfull]
      simp [hname]
    have hroom : start + nameSize ≤ min limit pathBufferSize := Nat.not_lt.1 hfull
    cases hboundary : level.isBoundary with
    | true =>
      -- nothing is above it
      obtain rfl : above = [] := by
        cases above with
        | nil => rfl
        | cons next above => simp [hboundary] at hinner
      refine ⟨1, .cons (.nil _ _) hname hroom, pathNames_of_boundary hname hroom hboundary [], ?_⟩
      rw [cutShort_of_boundary hroom hboundary]
      simp [hboundary]
    | false =>
      have habove : ∀ level ∈ above.dropLast, level.isBoundary = false := fun other hother => by
        cases above with
        | nil => cases hother
        | cons next above => exact hinner other (List.mem_cons_of_mem _ hother)
      obtain ⟨count, hfront, hnames, hcut⟩ := ih habove (start + (PathBuffer.segment level.name).length)
      refine ⟨count + 1, hfront.cons hname hroom, ?_, ?_⟩
      · rw [pathNames_of_inner hroom hboundary, hnames]
        rfl
      · rw [cutShort_of_inner hroom hboundary, hcut]
        simp [hboundary]

/-! ### Written paths -/

variable {view : View} {shown : Nat → Handle → Bytes} {d : Handle}

theorem inner_of_mem_dropLast_climb {level : Level} {buffer : NameBuffer} {depth : Nat}
    (h : level ∈ (climb view d buffer depth).dropLast) : level.isBoundary = false := by
  induction depth generalizing view d buffer with
  | zero => cases h
  | succ depth ih =>
    rw [climb] at h
    simp only at h
    split at h
    · cases h
    · next hinner =>
      cases habove : climb (view.later 1) (readLevel (view 0) d buffer).1.parent
          (readLevel (view 0) d buffer).2 depth with
      | nil =>
        rw [habove] at h
        cases h
      | cons next above =>
        rw [habove, List.dropLast_cons_cons] at h
        rcases List.mem_cons.1 h with rfl | h
        · exact Bool.eq_false_of_not_eq_true hinner
        · exact ih (habove ▸ h)

theorem ascent_eq_visited (h : ∀ n, (view n).Copies (shown n)) (d : Handle) :
    ascent view d = (view.visited shown 0 d maxPathDepth).mapIdx (view.levelAt shown) := by
  have hclimb := View.climb_later h 0 d (.zero _) maxPathDepth
  simp only [Nat.zero_add] at hclimb
  rw [← hclimb, show view.later 0 = view from funext fun k => congrArg view (Nat.zero_add k)]
  rfl

/-- No entry on the way up is a boundary: nothing ended it before the greatest depth. -/
theorem forall_inner_iff (h : ∀ n, (view n).Copies (shown n)) (d : Handle) :
    (∀ level ∈ ascent view d, level.isBoundary = false) ↔
      (view.visited shown 0 d maxPathDepth).length = maxPathDepth ∧
        ∀ k e, (view.visited shown 0 d maxPathDepth)[k]? = some e → ¬ view.EndsAt shown k e := by
  rw [ascent_eq_visited h]
  constructor
  · intro hinner
    have hends : ∀ k e, (view.visited shown 0 d maxPathDepth)[k]? = some e →
        ¬ view.EndsAt shown k e := by
      intro k e he
      rw [← View.isBoundary_levelAt, hinner _ (List.mem_of_getElem?
        (by rw [List.getElem?_mapIdx, he]; rfl))]
      exact Bool.false_ne_true
    refine ⟨View.length_visited_of_inner fun k e he => ?_, hends⟩
    rw [Nat.zero_add]
    exact hends k e he
  · rintro ⟨-, hends⟩ level hlevel
    obtain ⟨k, hk, rfl⟩ := List.mem_mapIdx.1 hlevel
    refine Bool.eq_false_of_not_eq_true (mt (View.isBoundary_levelAt k _).1 ?_)
    exact hends k _ (List.getElem?_eq_getElem hk)

/-- **What writing a path does.** Of the names of the entries on the way up, a front is added to what
the buffer held, each name cut to what fits and ended by a NUL. The path stops before the first
entry that shows no name, or at which a name of any length might not fit before the limit. It is
truncated if and only if it stops at a name, or visits as many entries as the depth allows without
one that ends the way up. -/
theorem writePath_outcome (h : ∀ n, (view n).Copies (shown n)) (paths : PathBuffer) (d : Handle)
    (limit : Nat) :
    let entries := view.visited shown 0 d maxPathDepth
    let names := entries.mapIdx (view.nameAt shown)
    let path := writePath view paths d limit
    ∃ count, WrittenFront limit paths.cursor names count ∧
      path.paths.filled = paths.filled ++ (names.take count).flatMap PathBuffer.segment ∧
      path.lengthFrom paths.cursor = ((names.take count).flatMap PathBuffer.segment).length ∧
      (count ≠ 0 → path.paths.cursor ≤ min limit pathBufferSize) ∧
      (path.truncated = true ↔ (∃ name, names[count]? = some name ∧ name ≠ []) ∨
        entries.length = maxPathDepth ∧
          ∀ k e, entries[k]? = some e → ¬ view.EndsAt shown k e) := by
  intro entries names path
  have hnames : (ascent view d).map (·.name) = names.map (·.take (nameSize - 1)) := by
    rw [ascent_eq_visited h]
    refine List.ext_getElem? fun k => ?_
    simp only [names, entries, List.getElem?_map, List.getElem?_mapIdx, Option.map_map]
    rfl
  have hinner : ∀ level ∈ (ascent view d).dropLast, level.isBoundary = false :=
    fun level hlevel => inner_of_mem_dropLast_climb hlevel
  obtain ⟨count, hfront, hwritten, hcut⟩ := @exists_writtenFront limit _ hinner paths.cursor
  rw [hnames] at hfront hwritten hcut
  have hbytes : pathBytes limit paths.cursor (ascent view d) =
      (names.take count).flatMap PathBuffer.segment := by
    rw [pathBytes_eq, hwritten, ← List.map_take, flatMap_segment_take]
  have hfilled : path.paths.filled =
      paths.filled ++ (names.take count).flatMap PathBuffer.segment := by
    rw [filled_writePath, ← PathBuffer.cursor_eq_length, hbytes]
  refine ⟨count, hfront.of_map_take, hfilled, ?_, fun hcount => ?_, ?_⟩
  · rw [lengthFrom_writePath, ← PathBuffer.cursor_eq_length, hbytes]
  · have hroom := hfront.room 0 (Nat.pos_of_ne_zero hcount)
    have hstart : paths.cursor ≤ min limit pathBufferSize :=
      (Nat.le_add_right paths.cursor nameSize).trans hroom
    rw [PathBuffer.cursor_eq_length, hfilled, List.length_append, ← PathBuffer.cursor_eq_length,
      ← hbytes]
    exact length_pathBytes_le hstart
  · rw [truncated_writePath, ← PathBuffer.cursor_eq_length, hcut]
    refine or_congr ?_ (forall_inner_iff h d)
    rw [List.getElem?_map]
    cases names[count]? with
    | none => simp
    | some name => simp [nameSize]

/-- Entries that are above each other in circles of three. -/
def carousel : Accessor where
  name _ size := some ⟨[110].take size, ([110].take size : Bytes).length⟩
  parent d := some ⟨(d.id + 1) % 3⟩
  inode d := some d.id
  mount _ := some 1
  device _ := some 1

/-- The path goes round till the depth is used up. -/
theorem writePath_outcome_carousel :
    (∀ n, (View.still carousel n).Copies fun _ => [110]) ∧
      (writePath (.still carousel) .empty ⟨0⟩ pathBufferSize).truncated = true := by
  have hcopies : ∀ n, (View.still carousel n).Copies fun _ => [110] := by
    intro _ d size read hread
    obtain rfl := Option.some.inj hread
    exact ⟨rfl, rfl⟩
  have hinner : ∀ n d, ¬ (View.still carousel).EndsAt (fun _ _ => [110]) n d := by
    intro n d hends
    have hinode : d.id ≠ (d.id + 1) % 3 := by omega
    have hparent : (⟨(d.id + 1) % 3⟩ : Handle) ≠ d := fun heq => hinode (congrArg (·.id) heq).symm
    simp [View.EndsAt, View.nameAt, carousel, Accessor.inodeOf, Accessor.parentInodeOf,
      Accessor.parentOf, Bytes.slash, hparent, hinode] at hends
  obtain ⟨count, -, -, -, -, htruncated⟩ :=
    writePath_outcome hcopies .empty ⟨0⟩ pathBufferSize
  refine ⟨hcopies, htruncated.2 (Or.inr ⟨?_, fun k e _ => hinner k e⟩)⟩
  exact View.length_visited_of_inner fun k e _ => hinner _ e

end FsTrace
