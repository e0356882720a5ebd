import FsTrace.Proofs.ShownPaths

/-!
# Lines of written records

What stands in a place to write to, which has room for everything, after some records. Each record
is followed by a newline, but not every newline ends a record: command names and file names may hold
any byte but NUL.

* `Writer.written_emitAll`: the written bytes are those of the lines, one after another;
* `splitOn_lines_iff`: when a text can be cut into its lines again;
* `Text.count_newline_decodeLossy`: text that is read from bytes has as many newlines as the bytes
  have;
* `Emission.newlinesShown`: the newlines in the names that a row shows, and
  `Emission.count_newline_row`;
* `Emission.table_lines_iff`: the rows of a table can be told apart just when there are none.
-/

namespace FsTrace

/-! ### Writing -/

/-- The lines of some records, one after another. -/
def Format.text (format : Format) (es : List Emission) : String := String.join (es.map format.line)

namespace Writer

variable {w : Writer} {format : Format}

/-- The writer after some records. -/
def emitAll (w : Writer) (format : Format) (es : List Emission) : Writer :=
  es.foldl (fun w e => (w.emit format e).2) w

theorem emit_of_room_eq_none (h : w.room = none) (e : Emission) :
    w.emit format e = ([], { w with written := w.written ++ (format.line e).toUTF8 }) := by
  simp only [emit, write, h]

/-- Where there is room for everything, the lines of all records are written. -/
theorem written_emitAll (h : w.room = none) (es : List Emission) :
    (w.emitAll format es).written = w.written ++ (format.text es).toUTF8 := by
  induction es generalizing w with
  | nil => simp [emitAll, Format.text]
  | cons e es ih =>
    have hrest := ih (w := (w.emit format e).2) (by rw [emit_of_room_eq_none h, h])
    rw [emit_of_room_eq_none h] at hrest
    simp only [emitAll, List.foldl_cons, emit_of_room_eq_none h] at hrest ⊢
    rw [hrest, Format.text, Format.text, List.map_cons, String.join_cons, ByteArray.append_assoc,
      String.toUTF8_eq_toByteArray, String.toUTF8_eq_toByteArray, String.toUTF8_eq_toByteArray,
      String.toByteArray_append]

/-- What an empty writer with room for everything holds after some records. -/
theorem written_emitAll_empty (format : Format) (es : List Emission) :
    (Writer.emitAll {} format es).written = (format.text es).toUTF8 := by
  rw [written_emitAll rfl, ByteArray.empty_append]

end Writer

/-- The text of a format that writes a row and a newline for each record. -/
theorem Format.toList_text {format : Format} {row : Emission → List Char}
    (h : ∀ e, (format.line e).toList = row e ++ ['\n']) (es : List Emission) :
    (format.text es).toList = (es.map row).flatMap (· ++ ['\n']) := by
  rw [text, String.toList_join, List.flatMap_map, List.flatMap_map]
  exact List.flatMap_congr fun e _ => h e

/-! ### Cutting at newlines -/

section Lines

variable {α : Type} [BEq α] {a : α} {lines : List (List α)}

theorem length_splitOn (a : α) (as : List α) : (as.splitOn a).length = as.count a + 1 := by
  induction as with
  | nil => simp
  | cons b as ih =>
    rw [List.splitOn_cons_eq_if_modifyHead, List.count_cons]
    split <;> simp [ih]

variable [LawfulBEq α]

theorem splitOn_lines (a : α) (lines : List (List α)) :
    (lines.flatMap (· ++ [a])).splitOn a = lines.flatMap (List.splitOn a) ++ [[]] := by
  induction lines with
  | nil => simp
  | cons line lines ih =>
    rw [List.flatMap_cons, List.append_assoc, List.singleton_append, List.splitOn_append_cons_self,
      ih, List.flatMap_cons, List.append_assoc]

/-- A text is cut into the lines that it was made of just when none of them holds a newline. -/
theorem splitOn_lines_iff :
    (lines.flatMap (· ++ [a])).splitOn a = lines ++ [[]] ↔ ∀ line ∈ lines, a ∉ line := by
  rw [splitOn_lines, List.append_left_inj]
  constructor
  · intro h line hline
    have hlength := congrArg List.length h
    rw [List.length_flatMap, List.map_congr_left fun line _ => length_splitOn a line,
      List.sum_map_add, List.map_const', List.sum_replicate, smul_eq_mul, mul_one,
      Nat.add_eq_right, List.sum_eq_zero_iff] at hlength
    exact List.count_eq_zero.1 (hlength _ (List.mem_map_of_mem hline))
  · intro h
    induction lines with
    | nil => rfl
    | cons line lines ih =>
      obtain ⟨hline, hlines⟩ := List.forall_mem_cons.1 h
      rw [List.flatMap_cons, ih hlines, List.splitOn_eq_singleton hline, List.singleton_append]

theorem count_lines (a : α) (lines : List (List α)) :
    (lines.flatMap (· ++ [a])).count a = lines.length + (lines.map (List.count a)).sum := by
  induction lines with
  | nil => rfl
  | cons line lines ih =>
    rw [List.flatMap_cons, List.count_append, List.count_append, List.count_singleton_self, ih,
      List.length_cons, List.map_cons, List.sum_cons]
    omega

theorem count_intersperse {separator : List α} (h : a ∉ separator) (lines : List (List α)) :
    (lines.intersperse separator).flatten.count a = (lines.map (List.count a)).sum := by
  induction lines with
  | nil => rfl
  | cons line lines ih =>
    cases lines with
    | nil => simp
    | cons next lines =>
      rw [List.intersperse_cons_cons, List.flatten_cons, List.flatten_cons, List.count_append,
        List.count_append, List.count_eq_zero.2 h, ih, Nat.zero_add]
      simp only [List.map_cons, List.sum_cons]

end Lines

/-! ### Newlines in text -/

namespace Text

variable {b low high : UInt8} {lead : Lead} {code count result : Nat} {rest bs : Bytes}

/-- The byte that is read as a newline. -/
def newline : UInt8 := 10

/-- A number that is no character stands for NUL only. -/
theorem ofNat_eq_iff {n : Nat} {c : Char} (hc : c ≠ '\x00') : Char.ofNat n = c ↔ n = c.toNat := by
  constructor
  · rintro rfl
    by_cases hvalid : n.isValidChar
    · rw [Char.ofNat, dif_pos hvalid]
      rfl
    · exact absurd (by rw [Char.ofNat, dif_neg hvalid]; rfl) hc
  · rintro rfl
    exact Char.ofNat_toNat c

theorem ofNat_eq_newline {n : Nat} : Char.ofNat n = '\n' ↔ n = 10 := ofNat_eq_iff (by decide)

/-- No character of several bytes is as small as a newline, and none of its further bytes is. -/
theorem lead_of_le (h : lead? b = some lead) (hb : 0x80 ≤ b) :
    0 < lead.count ∧ 10 < lead.bits * 64 + (lead.low.toNat - 0x80) ∧ 0x80 ≤ lead.low := by
  unfold lead? at h
  simp only [UInt8.lt_iff_toNat_lt, UInt8.le_iff_toNat_le, ← UInt8.toNat_inj,
    UInt8.reduceToNat] at h hb
  split_ifs at h
  all_goals
    obtain rfl := Option.some.inj h
    simp only [UInt8.le_iff_toNat_le, UInt8.reduceToNat]
    omega

theorem le_of_continuation (h : (continuation low high code count rest).2 = some result) :
    code ≤ result := by
  induction count generalizing low high code rest with
  | zero => exact (Option.some.inj h).le
  | succ count ih =>
    cases rest with
    | nil => cases h
    | cons b rest =>
      rw [continuation] at h
      split at h
      · have hle : code * 64 + (b.toNat - 0x80) ≤ result := ih h
        omega
      · cases h

theorem lt_of_continuation (hcount : 0 < count)
    (h : (continuation low high code count rest).2 = some result) :
    code * 64 + (low.toNat - 0x80) ≤ result := by
  obtain ⟨count, rfl⟩ := Nat.exists_eq_succ_of_ne_zero hcount.ne'
  cases rest with
  | nil => cases h
  | cons b rest =>
    rw [continuation] at h
    split at h
    · next hb =>
      have hle : code * 64 + (b.toNat - 0x80) ≤ result := le_of_continuation h
      have hlow := UInt8.le_iff_toNat_le.1 hb.1
      omega
    · cases h

/-- The further bytes of a character are no newlines. -/
theorem newline_notMem_continuation (hlow : 0x80 ≤ low) :
    newline ∉ rest.take (continuation low high code count rest).1 := by
  induction count generalizing low high code rest with
  | zero => simp [continuation]
  | succ count ih =>
    cases rest with
    | nil => simp
    | cons b rest =>
      rw [continuation]
      split
      · next hb =>
        have hne : newline ≠ b := by
          rintro rfl
          exact absurd (UInt8.le_trans hlow hb.1) (by decide)
        exact List.not_mem_cons_of_ne_of_not_mem hne (ih (UInt8.le_refl _))
      · simp

theorem decodeFirst_of_lt (hb : b < 0x80) (rest : Bytes) :
    decodeFirst b rest = (Char.ofNat b.toNat, 0) := by
  simp [decodeFirst, lead?, hb, continuation]

/-- A newline is read from its own byte only. -/
theorem fst_decodeFirst (b : UInt8) (rest : Bytes) :
    (decodeFirst b rest).1 = '\n' ↔ b = newline := by
  by_cases hb : b < 0x80
  · rw [decodeFirst_of_lt hb, ofNat_eq_newline, ← UInt8.toNat_inj]
    rfl
  · refine iff_of_false (fun hchar => ?_) (fun heq => hb (heq ▸ by decide))
    unfold decodeFirst at hchar
    split at hchar
    · exact absurd hchar (by decide)
    · next lead hlead =>
      obtain ⟨hcount, hbits, -⟩ := lead_of_le hlead (UInt8.not_lt.1 hb)
      split at hchar
      · next taken code hresult =>
        have hle := lt_of_continuation hcount (congrArg Prod.snd hresult)
        rw [ofNat_eq_newline] at hchar
        omega
      · next taken hresult => exact absurd hchar (show replacement ≠ '\n' by decide)

theorem newline_notMem_take (b : UInt8) (rest : Bytes) :
    newline ∉ rest.take (decodeFirst b rest).2 := by
  by_cases hb : b < 0x80
  · simp [decodeFirst_of_lt hb]
  · unfold decodeFirst
    split
    · simp
    · next lead hlead =>
      obtain ⟨-, -, hlow⟩ := lead_of_le hlead (UInt8.not_lt.1 hb)
      have hnot : newline ∉ rest.take
          (continuation lead.low lead.high lead.bits lead.count rest).1 :=
        newline_notMem_continuation hlow
      split
      · next hresult =>
        rw [hresult] at hnot
        exact hnot
      · next hresult =>
        rw [hresult] at hnot
        exact hnot

/-- Bytes are read as text with as many newlines as they have. -/
theorem count_newline_decodeLossy (bs : Bytes) :
    (decodeLossy bs).count '\n' = bs.count newline := by
  induction bs using decodeLossy.induct with
  | case1 => simp [decodeLossy]
  | case2 b rest first ih =>
    have hrest : rest.count newline = (rest.drop first.2).count newline := by
      conv_lhs => rw [← List.take_append_drop first.2 rest]
      rw [List.count_append, List.count_eq_zero.2 (newline_notMem_take b rest), Nat.zero_add]
    rw [decodeLossy, List.count_cons, List.count_cons, ih, hrest]
    simp only [beq_iff_eq, fst_decodeFirst]

end Text

/-! ### Newlines in rows -/

/-- No digit is a newline. -/
theorem newline_notMem_toDigits {base : Nat} (hbase : 1 < base) (n : Nat) :
    '\n' ∉ Nat.toDigits base n := by
  induction n using Nat.strong_induction_on with
  | _ n ih =>
    rw [Nat.toDigits_eq_if hbase]
    split
    · simp
    · next hlarge =>
      have hless : n / base < n := Nat.div_lt_self (by omega) hbase
      simp [ih _ hless]

theorem newline_notMem_nat (n : Nat) : '\n' ∉ (toString n).toList := by
  rw [Nat.toString_eq_repr, Nat.toList_repr]
  exact newline_notMem_toDigits (by decide) n

theorem newline_notMem_int (n : Int) : '\n' ∉ (toString n).toList := by
  cases n with
  | ofNat n => exact newline_notMem_nat n
  | negSucc n =>
    have htext : toString (Int.negSucc n) = "-" ++ toString n.succ := rfl
    rw [htext, String.toList_append, List.mem_append, not_or]
    exact ⟨by decide, newline_notMem_nat _⟩

theorem newline_notMem_hex (n : Nat) : '\n' ∉ (Text.hex n).toList := by
  rw [Text.hex, String.toList_ofList]
  exact newline_notMem_toDigits (by decide) n

theorem Kind.newline_notMem_name (k : Kind) : '\n' ∉ k.name.toList := by
  cases k <;> decide

theorem Bytes.sum_count_pieces {b separator : UInt8} (h : b ≠ separator) (bs : Bytes) :
    ((pieces separator bs).map (List.count b)).sum = bs.count b := by
  induction bs with
  | nil => rfl
  | cons c bs ih =>
    rw [pieces]
    split
    · next hc => simp [ih, hc, Ne.symm h]
    · split
      · next hnil =>
        rw [hnil] at ih
        simp [List.count_cons, ← ih]
      · next piece later hpieces =>
        rw [hpieces] at ih
        simp only [List.map_cons, List.sum_cons, List.count_cons] at ih ⊢
        omega

/-- The names of a path have the bytes of the path but for the separators. -/
theorem Bytes.sum_count_segments {b : UInt8} (h : b ≠ 0) (path : Bytes) :
    ((segments path).map (List.count b)).sum = path.count b := by
  rw [← sum_count_pieces h, segments]
  induction pieces 0 path with
  | nil => rfl
  | cons piece later ih =>
    rw [List.filter_cons]
    split
    · simp [ih]
    · next hempty =>
      have hnil : piece = [] := by simpa using hempty
      simp [ih, hnil]

namespace Emission

/-- The newlines in the names that a row shows: that of the command, those of the source's path, and
those of the target's path if there is a target. -/
def newlinesShown (e : Emission) : Nat :=
  e.event.caller.commandText.count Text.newline + e.split.1.count Text.newline +
    if e.event.kind.hasTarget then e.split.2.count Text.newline else 0

theorem count_newline_joinNames (names : List (List Char)) :
    (joinNames names).count '\n' = (names.map (List.count '\n')).sum := by
  have hseparator : '\n' ∉ ['/'] := by decide
  rw [← count_intersperse hseparator, joinNames]
  split
  · next rest hjoined => simp [hjoined]
  · rfl

theorem count_newline_showPath (e : Endpoint) (path : Bytes) :
    (showPath e path).toList.count '\n' = path.count Text.newline := by
  rw [showPath]
  split
  · next hempty =>
    have hnone : '\n' ∉ (if e.pathKey = 0 then "inode:" ++ (Location.mk e.inode e.mount).toText
        else "key:0x" ++ Text.hex e.pathKey.toNat).toList := by
      split
      · simp [Location.toText, newline_notMem_hex]
      · simp [newline_notMem_hex]
    rw [List.count_eq_zero.2 hnone, List.isEmpty_iff.1 hempty, List.count_nil]
  · rw [String.toList_ofList, count_newline_joinNames, ← Bytes.sum_count_segments (by decide),
      List.map_reverse, List.sum_reverse, List.map_map]
    exact congrArg List.sum (List.map_congr_left fun name _ => Text.count_newline_decodeLossy name)

theorem count_alignRight (width : Nat) (s : String) :
    (alignRight width s).toList.count '\n' = s.toList.count '\n' := by
  simp [alignRight, List.count_replicate]

theorem count_alignLeft (width : Nat) (s : String) :
    (alignLeft width s).toList.count '\n' = s.toList.count '\n' := by
  simp [alignLeft, List.count_replicate]

/-- A row holds the newlines of the names that it shows, and no others. -/
theorem count_newline_row (e : Emission) : e.row.toList.count '\n' = e.newlinesShown := by
  have htarget : (if e.event.kind.hasTarget then " -> " ++ showPath e.event.target e.split.2
      else "").toList.count '\n' =
        if e.event.kind.hasTarget then e.split.2.count Text.newline else 0 := by
    split
    · rw [String.toList_append, List.count_append, count_newline_showPath]
      exact Nat.zero_add _
    · rfl
  have htimestamp : (toString e.event.caller.timestamp).toList.count '\n' = 0 :=
    List.count_eq_zero.2 (newline_notMem_nat _)
  have hpid : (toString e.event.caller.pid).toList.count '\n' = 0 :=
    List.count_eq_zero.2 (newline_notMem_nat _)
  have hkind : e.event.kind.name.toList.count '\n' = 0 :=
    List.count_eq_zero.2 e.event.kind.newline_notMem_name
  have hretval : (toString e.event.retval).toList.count '\n' = 0 :=
    List.count_eq_zero.2 (newline_notMem_int _)
  have hseparator : '\n' ∉ " ".toList := by decide
  simp only [row, String.toList_append, String.toList_intercalate, List.intercalate,
    List.count_append, htarget, count_intersperse hseparator, List.map_cons, List.map_nil,
    List.sum_cons, List.sum_nil, count_alignLeft, count_alignRight, count_newline_showPath,
    Text.toList_lossy, Text.count_newline_decodeLossy, htimestamp, hpid, hkind, hretval,
    Nat.zero_add, Nat.add_zero, newlinesShown]

theorem toList_table (es : List Emission) :
    (Format.table.text es).toList = (es.map (·.row.toList)).flatMap (· ++ ['\n']) :=
  Format.toList_text (fun _ => String.toList_append) es

theorem count_newline_table (es : List Emission) :
    (Format.table.text es).toList.count '\n' = es.length + (es.map newlinesShown).sum := by
  rw [toList_table, count_lines, List.length_map, List.map_map]
  simp only [Function.comp_def, count_newline_row]

/-- **Lines of a table.** Some records are written as a table, to where there is room for all of
them. The text has one newline for each record, and one for each newline in a name that it shows. So
it is cut into the rows, in their order, just when no name that is shown holds a newline. -/
theorem table_lines_iff (es : List Emission) :
    ∃ text : String, (Writer.emitAll {} .table es).written = text.toUTF8 ∧
      text.toList.count '\n' = es.length + (es.map newlinesShown).sum ∧
      (text.toList.splitOn '\n' = es.map (·.row.toList) ++ [[]] ↔
        ∀ e ∈ es, e.newlinesShown = 0) := by
  refine ⟨_, Writer.written_emitAll_empty .table es, count_newline_table es, ?_⟩
  rw [toList_table, splitOn_lines_iff, List.forall_mem_map]
  simp only [← count_newline_row, List.count_eq_zero]

/-- A file with a newline in its name makes one record look like two. -/
theorem table_line_split :
    ¬ ∀ (es : List Emission) (text : String),
      (Writer.emitAll {} .table es).written = text.toUTF8 →
        text.toList.count '\n' = es.length := by
  intro h
  let e : Emission :=
    { event :=
        { caller := ({ pid := 7, tid := 7 } : Caller).setCommand [99, 97, 116]
          src := { inode := 12, pathLength := 6 } }
      paths := [97, 10, 98, 0, Bytes.slash, 0] }
  have hcount := h [e] _ (Writer.written_emitAll_empty .table [e])
  rw [count_newline_table] at hcount
  exact absurd hcount (by decide)

end Emission

end FsTrace
