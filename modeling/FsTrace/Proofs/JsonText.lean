import FsTrace.Proofs.WrittenLines
import FsTrace.Text.Reading

/-!
# Reading JSON text

A reader of JSON, for texts whose numbers are integers, and the law that it undoes the writing of a
value: whatever characters the strings hold, and however values are nested.

* `Json.string?`, `Json.natural?`, `Json.value?` and `Json.read?`: the reader. It takes blanks
  between the parts of a text and all escapes, but no `null`, which is not a `Json`, and no
  character that is written as two code units;
* `Json.read?_render`: what was written is read back;
* `Json.newline_notMem_render`: a written value is one line.
-/

namespace FsTrace.Json

open Text (codePoint? push)

/-! ### The reader -/

/-- A blank, which may stand between the parts of a text. -/
def isBlank (c : Char) : Bool := c = ' ' ∨ c = '\t' ∨ c = '\n' ∨ c = '\r'

/-- What is left after blanks. -/
def skipBlanks (cs : List Char) : List Char := cs.dropWhile isBlank

/-- The character of a short escape. -/
def shortEscape? : Char → Option Char
  | '"' => some '"'
  | '\\' => some '\\'
  | '/' => some '/'
  | 'b' => some '\x08'
  | 'f' => some '\x0c'
  | 'n' => some '\n'
  | 'r' => some '\r'
  | 't' => some '\t'
  | _ => none

/-- The rest of a quoted string, and what is left after it. Control characters have to be
escaped. -/
def string? : List Char → Option (List Char × List Char)
  | [] => none
  | '"' :: rest => some ([], rest)
  | '\\' :: 'u' :: a :: b :: c :: d :: rest => do
    return push (← codePoint? [a, b, c, d]) (← string? rest)
  | '\\' :: c :: rest => do return push (← shortEscape? c) (← string? rest)
  | c :: rest => if c.toNat < 32 ∨ c = '\\' then none else (string? rest).map (push c)

/-- A number without leading zeros, and what is left after it. -/
def natural? (cs : List Char) : Option (Nat × List Char) :=
  match cs.span Char.isDigit with
  | ([], _) | ('0' :: _ :: _, _) => none
  | (digits, rest) => some (Nat.ofDigitChars 10 digits 0, rest)

mutual

/-- A value, and what is left after it. At most `fuel` steps are taken into what is nested, and
along its items. -/
def value? : Nat → List Char → Option (Json × List Char)
  | 0, _ => none
  | fuel + 1, cs =>
    match skipBlanks cs with
    | '"' :: rest => do
      let (value, rest) ← string? rest
      return (.str (String.ofList value), rest)
    | '[' :: rest =>
      match skipBlanks rest with
      | ']' :: rest => some (.arr [], rest)
      | rest => do
        let (items, rest) ← items? fuel rest
        return (.arr items, rest)
    | '\x7b' :: rest =>
      match skipBlanks rest with
      | '\x7d' :: rest => some (.obj [], rest)
      | rest => do
        let (fields, rest) ← fields? fuel rest
        return (.obj fields, rest)
    | 't' :: 'r' :: 'u' :: 'e' :: rest => some (.bool true, rest)
    | 'f' :: 'a' :: 'l' :: 's' :: 'e' :: rest => some (.bool false, rest)
    | '-' :: rest => do
      let (value, rest) ← natural? rest
      return (.int (-value), rest)
    | cs => do
      let (value, rest) ← natural? cs
      return (.int value, rest)

/-- One or more items of a list, and what is left after its closing bracket. -/
def items? : Nat → List Char → Option (List Json × List Char)
  | 0, _ => none
  | fuel + 1, cs => do
    let (item, rest) ← value? fuel cs
    match skipBlanks rest with
    | ',' :: rest =>
      let (items, rest) ← items? fuel rest
      return (item :: items, rest)
    | ']' :: rest => return ([item], rest)
    | _ => none

/-- One or more fields of an object, and what is left after its closing brace. -/
def fields? : Nat → List Char → Option (List (String × Json) × List Char)
  | 0, _ => none
  | fuel + 1, cs =>
    match skipBlanks cs with
    | '"' :: rest => do
      let (name, rest) ← string? rest
      match skipBlanks rest with
      | ':' :: rest =>
        let (value, rest) ← value? fuel rest
        match skipBlanks rest with
        | ',' :: rest =>
          let (fields, rest) ← fields? fuel rest
          return ((String.ofList name, value) :: fields, rest)
        | '\x7d' :: rest => return ([(String.ofList name, value)], rest)
        | _ => none
      | _ => none
    | _ => none

end

/-- The value of a whole text. -/
def read? (cs : List Char) : Option Json :=
  match value? cs.length cs with
  | some (value, rest) => if (skipBlanks rest).isEmpty then some value else none
  | none => none

/-! ### Strings -/

variable {c : Char} {rest : List Char} {fuel : Nat}

/-- The two digits in base sixteen of a control character, after two zeros, are read back. -/
theorem codePoint?_hexPadded {n : Nat} (h : n < 32) :
    (Text.hexPadded 2 n).toList = [(n / 16).digitChar, (n % 16).digitChar] ∧
      codePoint? ['0', '0', (n / 16).digitChar, (n % 16).digitChar] = some (Char.ofNat n) := by
  revert n
  decide

/-- An escaped character is read back. -/
theorem string?_escapeChar (c : Char) (rest : List Char) :
    string? (escapeChar c ++ rest) = (string? rest).map (push c) := by
  have hshort : ∀ short, short ≠ 'u' → shortEscape? short = some c →
      string? ('\\' :: short :: rest) = (string? rest).map (push c) := by
    intro short hne hescape
    rw [string?]
    · rw [hescape]
      cases string? rest <;> rfl
    · exact fun _ _ _ _ _ hu => absurd hu hne
  unfold escapeChar
  split_ifs with hquote hslash hback hfeed hline hreturn htab hcontrol
  · exact hshort '"' (by decide) (by rw [hquote]; rfl)
  · exact hshort '\\' (by decide) (by rw [hslash]; rfl)
  · exact hshort 'b' (by decide) (congrArg some (Char.ext (UInt32.toNat_inj.1 hback.symm)))
  · exact hshort 'f' (by decide) (congrArg some (Char.ext (UInt32.toNat_inj.1 hfeed.symm)))
  · exact hshort 'n' (by decide) (hline ▸ rfl)
  · exact hshort 'r' (by decide) (hreturn ▸ rfl)
  · exact hshort 't' (by decide) (htab ▸ rfl)
  · obtain ⟨hdigits, hcode⟩ := codePoint?_hexPadded hcontrol
    rw [hdigits]
    show string? ('\\' :: 'u' :: '0' :: '0' :: (c.toNat / 16).digitChar ::
      (c.toNat % 16).digitChar :: rest) = _
    rw [string?, hcode, Char.ofNat_toNat]
    cases string? rest <;> rfl
  · rw [List.singleton_append, string?, if_neg (not_or.2 ⟨hcontrol, hslash⟩)]
    · exact hquote
    · exact fun _ _ _ _ _ hc => absurd hc hslash
    · exact fun _ _ hc => absurd hc hslash

theorem string?_flatMap_escapeChar (cs rest : List Char) :
    string? (cs.flatMap escapeChar ++ '"' :: rest) = some (cs, rest) := by
  induction cs with
  | nil => rw [List.flatMap_nil, List.nil_append, string?]
  | cons c cs ih => rw [List.flatMap_cons, List.append_assoc, string?_escapeChar, ih]; rfl

/-! ### Numbers -/

/-- What follows a number does not go on with a digit. -/
def EndsNumber (rest : List Char) : Prop := ∀ c ∈ rest.head?, c.isDigit = false

theorem toDigits_eq_cons (n : Nat) :
    ∃ c cs, Nat.toDigits 10 n = c :: cs ∧ c.isDigit = true := by
  obtain ⟨c, cs, hdigits⟩ := List.exists_cons_of_ne_nil (Nat.toDigits_ne_nil (n := n) (b := 10))
  exact ⟨c, cs, hdigits,
    Nat.isDigit_of_mem_toDigits (by decide) (by decide) (hdigits ▸ List.mem_cons_self)⟩

/-- Digits have no leading zero, but for the number zero itself. -/
theorem toDigits_cases (n : Nat) :
    n = 0 ∨ ∃ c cs, Nat.toDigits 10 n = c :: cs ∧ c ≠ '0' := by
  induction n using Nat.strong_induction_on with
  | _ n ih =>
    by_cases hzero : n = 0
    · exact Or.inl hzero
    · refine Or.inr ?_
      rw [Nat.toDigits_eq_if (by decide)]
      split
      · exact ⟨_, _, rfl, by simpa using hzero⟩
      · next hlarge =>
        rcases ih (n / 10) (by omega) with hdiv | ⟨c, cs, hdigits, hc⟩
        · omega
        · exact ⟨c, _, by rw [hdigits, List.cons_append], hc⟩

theorem natural?_toDigits (n : Nat) (h : EndsNumber rest) :
    natural? (Nat.toDigits 10 n ++ rest) = some (n, rest) := by
  have hdigits : ∀ c ∈ Nat.toDigits 10 n, c.isDigit = true :=
    fun c => Nat.isDigit_of_mem_toDigits (by decide) (by decide)
  have hspan : (Nat.toDigits 10 n ++ rest).span Char.isDigit = (Nat.toDigits 10 n, rest) := by
    have htake : rest.takeWhile Char.isDigit = [] := by
      cases rest with
      | nil => rfl
      | cons c rest => exact List.takeWhile_cons_of_neg (by simpa [EndsNumber] using h)
    have hdrop : rest.dropWhile Char.isDigit = rest := by
      cases rest with
      | nil => rfl
      | cons c rest => exact List.dropWhile_cons_of_neg (by simpa [EndsNumber] using h)
    rw [List.span_eq_takeWhile_dropWhile, List.takeWhile_append_of_pos hdigits,
      List.dropWhile_append_of_pos hdigits, htake, hdrop, List.append_nil]
  have hvalue : Nat.ofDigitChars 10 (Nat.toDigits 10 n) 0 = n := Nat.ofDigitChars_ten_toDigits
  rw [natural?, hspan]
  rcases toDigits_cases n with rfl | ⟨c, cs, hcs, hc⟩
  · rfl
  · rw [hcs] at hvalue ⊢
    split
    · next heq => cases heq
    · next heq => exact absurd (List.cons.inj (Prod.mk.inj heq).1).1 hc
    · next heq =>
      obtain ⟨rfl, rfl⟩ := Prod.mk.inj heq
      rw [hvalue]

/-! ### Values -/

theorem skipBlanks_of_not (h : isBlank c = false) (rest : List Char) :
    skipBlanks (c :: rest) = c :: rest :=
  List.dropWhile_cons_of_neg (by rw [h]; decide)

theorem not_isBlank_of_isDigit (h : c.isDigit = true) : isBlank c = false := by
  rw [isBlank, decide_eq_false_iff_not]
  rintro (rfl | rfl | rfl | rfl) <;> exact absurd h (by decide)

/-- The text of a value starts with a character that is neither a blank nor the end of a list. -/
theorem render_eq_cons (j : Json) :
    ∃ c cs, j.render = c :: cs ∧ isBlank c = false ∧ c ≠ ']' := by
  have hnumber : ∀ n, ∃ c cs, Nat.toDigits 10 n = c :: cs ∧ isBlank c = false ∧ c ≠ ']' := by
    intro n
    obtain ⟨c, cs, hdigits, hdigit⟩ := toDigits_eq_cons n
    refine ⟨c, cs, hdigits, not_isBlank_of_isDigit hdigit, ?_⟩
    rintro rfl
    exact absurd hdigit (by decide)
  cases j with
  | bool value => cases value <;> exact ⟨_, _, rfl, by decide, by decide⟩
  | int value =>
    cases value with
    | ofNat n => exact hnumber n
    | negSucc n => exact ⟨_, _, rfl, by decide, by decide⟩
  | str value => exact ⟨_, _, rfl, by decide, by decide⟩
  | arr items => exact ⟨_, _, rfl, by decide, by decide⟩
  | obj fields => exact ⟨_, _, rfl, by decide, by decide⟩

/-- What starts with a digit is read as a number. -/
theorem value?_of_digit (h : c.isDigit = true) (rest : List Char) :
    value? (fuel + 1) (c :: rest) = (natural? (c :: rest)).map fun r => (.int r.1, r.2) := by
  have hother : ∀ {d cs}, c :: rest = d :: cs → d.isDigit = false → False := by
    intro d cs hcons hd
    rw [← (List.cons.inj hcons).1, h] at hd
    cases hd
  rw [value?, skipBlanks_of_not (not_isBlank_of_isDigit h)]
  split
  iterate 6 (next heq => exact (hother heq (by decide)).elim)
  cases natural? (c :: rest) <;> rfl

theorem value?_negative (rest : List Char) :
    value? (fuel + 1) ('-' :: rest) = (natural? rest).map fun r => (.int (-r.1), r.2) := by
  rw [value?, skipBlanks_of_not (by decide)]
  simp only
  cases natural? rest <;> rfl

/-- A list that does not end at once has items. -/
theorem value?_items (hblank : isBlank c = false) (hc : c ≠ ']') (rest : List Char) :
    value? (fuel + 1) ('[' :: c :: rest) =
      (items? fuel (c :: rest)).map fun r => (.arr r.1, r.2) := by
  rw [value?, skipBlanks_of_not (by decide)]
  simp only
  rw [skipBlanks_of_not hblank]
  split
  · next heq => exact absurd (List.cons.inj heq).1 hc
  · cases items? fuel (c :: rest) <;> rfl

/-- An object that does not end at once has fields. -/
theorem value?_fields (rest : List Char) :
    value? (fuel + 1) ('\x7b' :: '"' :: rest) =
      (fields? fuel ('"' :: rest)).map fun r => (.obj r.1, r.2) := by
  rw [value?, skipBlanks_of_not (by decide)]
  simp only
  rw [skipBlanks_of_not (by decide)]
  split
  · next heq => exact absurd (List.cons.inj heq).1 (by decide)
  · cases fields? fuel ('"' :: rest) <;> rfl

mutual

/-- How much fuel reading a value takes. -/
def need : Json → Nat
  | .bool _ | .int _ | .str _ => 1
  | .arr items => 1 + needItems items
  | .obj fields => 1 + needFields fields

/-- How much fuel reading the items of a list takes. -/
def needItems : List Json → Nat
  | [] => 0
  | item :: items => 1 + item.need + needItems items

/-- How much fuel reading the fields of an object takes. -/
def needFields : List (String × Json) → Nat
  | [] => 0
  | (_, value) :: fields => 1 + value.need + needFields fields

end

theorem value?_string (rest : List Char) :
    value? (fuel + 1) ('"' :: rest) =
      (string? rest).map fun r => (.str (String.ofList r.1), r.2) := by
  rw [value?, skipBlanks_of_not (by decide)]
  simp only
  cases string? rest <;> rfl

theorem exists_fuel (j : Json) (h : j.need ≤ fuel) : ∃ k, fuel = k + 1 := by
  refine Nat.exists_eq_add_of_le' (le_trans ?_ h)
  cases j <;> simp [need]

/-- The text of several items: the first, and after a comma the others. -/
theorem separate_cons_cons (item next : List Char) (items : List (List Char)) (rest : List Char) :
    separate (item :: next :: items) ++ rest =
      item ++ ',' :: (separate (next :: items) ++ rest) := by
  simp [separate]

theorem exists_separate (item : List Char) (items : List (List Char)) :
    ∃ tail, separate (item :: items) = item ++ tail := by
  cases items with
  | nil => exact ⟨[], (List.append_nil item).symm⟩
  | cons next items => exact ⟨_, List.append_assoc _ _ _⟩

theorem separate_singleton (item rest : List Char) : separate [item] ++ rest = item ++ rest := rfl

theorem endsNumber_cons (h : c.isDigit = false) (rest : List Char) : EndsNumber (c :: rest) := by
  rintro _ ⟨⟩
  exact h

theorem items?_of_value {item : Json} {cs : List Char}
    (h : value? fuel cs = some (item, ']' :: rest)) :
    items? (fuel + 1) cs = some ([item], rest) := by
  rw [items?, h]
  rfl

theorem items?_of_value_comma {item : Json} {cs : List Char}
    (h : value? fuel cs = some (item, ',' :: rest)) :
    items? (fuel + 1) cs = (items? fuel rest).map fun r => (item :: r.1, r.2) := by
  rw [items?, h]
  simp only [Option.bind_eq_bind, Option.bind_some]
  rw [skipBlanks_of_not (by decide)]
  simp only
  cases items? fuel rest <;> rfl

theorem quote_append (name : String) (rest : List Char) :
    quote name ++ rest = '"' :: (name.toList.flatMap escapeChar ++ '"' :: rest) := by
  simp [quote]

/-- A field is read as its name and its value, and goes on as what follows the value says. -/
theorem fields?_of_value {name : String} {value : Json} {cs : List Char}
    (h : value? fuel cs = some (value, '\x7d' :: rest)) :
    fields? (fuel + 1) (quote name ++ ':' :: cs) = some ([(name, value)], rest) := by
  rw [quote_append, fields?, skipBlanks_of_not (by decide)]
  simp only [string?_flatMap_escapeChar, Option.bind_eq_bind, Option.bind_some]
  rw [skipBlanks_of_not (by decide)]
  simp only [h, Option.bind_some]
  rw [skipBlanks_of_not (by decide), String.ofList_toList]
  rfl

theorem fields?_of_value_comma {name : String} {value : Json} {cs : List Char}
    (h : value? fuel cs = some (value, ',' :: rest)) :
    fields? (fuel + 1) (quote name ++ ':' :: cs) =
      (fields? fuel rest).map fun r => ((name, value) :: r.1, r.2) := by
  rw [quote_append, fields?, skipBlanks_of_not (by decide)]
  simp only [string?_flatMap_escapeChar, Option.bind_eq_bind, Option.bind_some]
  rw [skipBlanks_of_not (by decide)]
  simp only [h, Option.bind_some]
  rw [skipBlanks_of_not (by decide), String.ofList_toList]
  simp only
  cases fields? fuel rest <;> rfl

mutual

/-- A value that was written is read back, whatever follows it. -/
theorem value?_render : ∀ (j : Json) (fuel : Nat) (rest : List Char), j.need ≤ fuel →
    EndsNumber rest → value? fuel (j.render ++ rest) = some (j, rest)
  | .bool value, fuel, rest, hfuel, _ => by
    obtain ⟨fuel, rfl⟩ := exists_fuel _ hfuel
    cases value <;> rfl
  | .int (.ofNat n), fuel, rest, hfuel, hrest => by
    obtain ⟨fuel, rfl⟩ := exists_fuel _ hfuel
    obtain ⟨c, cs, hdigits, hdigit⟩ := toDigits_eq_cons n
    have hnumber := natural?_toDigits n hrest
    rw [hdigits, List.cons_append] at hnumber
    rw [render, decimal, hdigits, List.cons_append, value?_of_digit hdigit, hnumber]
    rfl
  | .int (.negSucc n), fuel, rest, hfuel, hrest => by
    obtain ⟨fuel, rfl⟩ := exists_fuel _ hfuel
    rw [render, decimal, List.cons_append, value?_negative, natural?_toDigits _ hrest]
    rfl
  | .str value, fuel, rest, hfuel, _ => by
    obtain ⟨fuel, rfl⟩ := exists_fuel _ hfuel
    rw [render, quote, List.append_assoc, List.append_assoc, List.singleton_append,
      List.singleton_append, value?_string, string?_flatMap_escapeChar]
    exact congrArg (fun s => some (Json.str s, rest)) String.ofList_toList
  | .arr [], fuel, rest, hfuel, _ => by
    obtain ⟨fuel, rfl⟩ := exists_fuel _ hfuel
    rfl
  | .arr (item :: items), fuel, rest, hfuel, _ => by
    obtain ⟨fuel, rfl⟩ := exists_fuel _ hfuel
    have hitems := items?_render item items fuel rest (by rw [need] at hfuel; omega)
    obtain ⟨c, cs, htext, hblank, hc⟩ := item.render_eq_cons
    obtain ⟨tail, htail⟩ := exists_separate item.render (renderItems items)
    have hbracket : render (.arr (item :: items)) ++ rest =
        '[' :: (separate (renderItems (item :: items)) ++ ']' :: rest) := by
      simp [render]
    rw [hbracket]
    rw [renderItems, htail, htext, List.cons_append, List.cons_append] at hitems ⊢
    rw [value?_items hblank hc, hitems]
    rfl
  | .obj [], fuel, rest, hfuel, _ => by
    obtain ⟨fuel, rfl⟩ := exists_fuel _ hfuel
    rfl
  | .obj (field :: fields), fuel, rest, hfuel, _ => by
    obtain ⟨fuel, rfl⟩ := exists_fuel _ hfuel
    have hfields := fields?_render field fields fuel rest (by rw [need] at hfuel; omega)
    obtain ⟨tail, htail⟩ := exists_separate (quote field.1 ++ [':'] ++ field.2.render)
      (renderFields fields)
    have hbrace : render (.obj (field :: fields)) ++ rest =
        '\x7b' :: (separate (renderFields (field :: fields)) ++ '\x7d' :: rest) := by
      simp [render]
    rw [hbrace]
    rw [renderFields, htail, List.append_assoc, List.append_assoc, List.append_assoc,
      quote_append] at hfields ⊢
    rw [value?_fields, hfields]
    rfl

/-- Items that were written are read back. -/
theorem items?_render : ∀ (item : Json) (items : List Json) (fuel : Nat) (rest : List Char),
    needItems (item :: items) ≤ fuel →
    items? fuel (separate (renderItems (item :: items)) ++ ']' :: rest) =
      some (item :: items, rest)
  | item, [], fuel, rest, hfuel => by
    rw [needItems] at hfuel
    obtain ⟨fuel, rfl⟩ : ∃ k, fuel = k + 1 := Nat.exists_eq_add_of_le' (by omega)
    have hitem := value?_render item fuel _ (by omega)
      (endsNumber_cons (c := ']') (by decide) rest)
    exact items?_of_value hitem
  | item, next :: items, fuel, rest, hfuel => by
    rw [needItems] at hfuel
    obtain ⟨fuel, rfl⟩ : ∃ k, fuel = k + 1 := Nat.exists_eq_add_of_le' (by omega)
    have hitems := items?_render next items fuel rest (by omega)
    have hitem := value?_render item fuel _ (by omega)
      (endsNumber_cons (c := ',') (by decide)
        (separate (renderItems (next :: items)) ++ ']' :: rest))
    rw [renderItems, renderItems, separate_cons_cons, ← renderItems, items?_of_value_comma hitem,
      hitems]
    rfl

/-- Fields that were written are read back. -/
theorem fields?_render : ∀ (field : String × Json) (fields : List (String × Json)) (fuel : Nat)
    (rest : List Char), needFields (field :: fields) ≤ fuel →
    fields? fuel (separate (renderFields (field :: fields)) ++ '\x7d' :: rest) =
      some (field :: fields, rest)
  | (name, value), [], fuel, rest, hfuel => by
    rw [needFields] at hfuel
    obtain ⟨fuel, rfl⟩ : ∃ k, fuel = k + 1 := Nat.exists_eq_add_of_le' (by omega)
    have hvalue := value?_render value fuel _ (by omega)
      (endsNumber_cons (c := '\x7d') (by decide) rest)
    rw [renderFields, renderFields, separate_singleton, List.append_assoc, List.append_assoc,
      List.singleton_append]
    exact fields?_of_value hvalue
  | (name, value), next :: fields, fuel, rest, hfuel => by
    rw [needFields] at hfuel
    obtain ⟨fuel, rfl⟩ : ∃ k, fuel = k + 1 := Nat.exists_eq_add_of_le' (by omega)
    have hfields := fields?_render next fields fuel rest (by omega)
    have hvalue := value?_render value fuel _ (by omega)
      (endsNumber_cons (c := ',') (by decide)
        (separate (renderFields (next :: fields)) ++ '\x7d' :: rest))
    rw [renderFields, renderFields, separate_cons_cons, ← renderFields, List.append_assoc,
      List.append_assoc, List.singleton_append, fields?_of_value_comma hvalue, hfields]
    rfl

end

/-! ### Whole texts -/

mutual

/-- The text of a value is long enough for the fuel that reading it takes. -/
theorem need_le_length : ∀ j : Json, j.need ≤ j.render.length
  | .bool value => by cases value <;> decide
  | .int value => by
    obtain ⟨c, cs, hrender, -⟩ := render_eq_cons (.int value)
    rw [hrender, need, List.length_cons]
    omega
  | .str value => by simp [need, render, quote]
  | .arr items => by
    have hitems := needItems_le_length items
    simp only [need, render, List.length_append, List.length_singleton]
    omega
  | .obj fields => by
    have hfields := needFields_le_length fields
    simp only [need, render, List.length_append, List.length_singleton]
    omega

/-- The commas make up for the steps from one item to the next. -/
theorem needItems_le_length : ∀ items : List Json,
    needItems items ≤ (separate (renderItems items)).length + 1
  | [] => Nat.zero_le _
  | [item] => by
    have hitem := need_le_length item
    simp only [needItems, renderItems, separate]
    omega
  | item :: next :: items => by
    have hitem := need_le_length item
    have hitems := needItems_le_length (next :: items)
    simp only [renderItems, separate, List.length_append, List.length_singleton] at hitems ⊢
    rw [needItems]
    omega

theorem needFields_le_length : ∀ fields : List (String × Json),
    needFields fields ≤ (separate (renderFields fields)).length + 1
  | [] => Nat.zero_le _
  | [(name, value)] => by
    have hvalue := need_le_length value
    simp only [needFields, renderFields, separate, List.length_append, List.length_singleton]
    omega
  | (name, value) :: next :: fields => by
    have hvalue := need_le_length value
    have hfields := needFields_le_length (next :: fields)
    simp only [renderFields, separate, List.length_append, List.length_singleton] at hfields ⊢
    rw [needFields]
    omega

end

/-- **What was written is read back.** -/
theorem read?_render (j : Json) : read? j.render = some j := by
  have hvalue := value?_render j _ [] j.need_le_length (by rintro _ ⟨⟩)
  rw [List.append_nil] at hvalue
  rw [read?, hvalue]
  rfl

example : read? " [ -20, \"\\u0041\\/\" ] ".toList = some (.arr [.int (-20), .str "A/"]) := by cbv

example : read? "01".toList = none := by cbv

/-! ### Lines -/

theorem newline_notMem_escapeChar (c : Char) : '\n' ∉ escapeChar c := by
  unfold escapeChar
  split_ifs with hquote hslash hback hfeed hline hreturn htab hcontrol
  iterate 7 (· decide)
  · obtain ⟨hdigits, -⟩ := codePoint?_hexPadded hcontrol
    simp [hdigits]
  · simpa using Ne.symm hline

theorem newline_notMem_quote (s : String) : '\n' ∉ quote s := by
  have hchars : '\n' ∉ s.toList.flatMap escapeChar := by
    rw [List.mem_flatMap]
    rintro ⟨c, -, hc⟩
    exact newline_notMem_escapeChar c hc
  simp [quote, hchars]

theorem newline_notMem_decimal (n : Int) : '\n' ∉ decimal n := by
  cases n with
  | ofNat n => exact newline_notMem_toDigits (by decide) n
  | negSucc n =>
    exact List.not_mem_cons_of_ne_of_not_mem (by decide) (newline_notMem_toDigits (by decide) _)

theorem newline_notMem_separate {items : List (List Char)} (h : ∀ item ∈ items, '\n' ∉ item) :
    '\n' ∉ separate items := by
  induction items with
  | nil => exact List.not_mem_nil
  | cons item items ih =>
    obtain ⟨hitem, hitems⟩ := List.forall_mem_cons.1 h
    cases items with
    | nil => exact hitem
    | cons next items => simp [separate, hitem, ih hitems]

mutual

/-- The text of a value is one line. -/
theorem newline_notMem_render : ∀ j : Json, '\n' ∉ j.render
  | .bool value => by cases value <;> decide
  | .int value => newline_notMem_decimal value
  | .str value => newline_notMem_quote value
  | .arr items => by
    have hitems := newline_notMem_separate (newline_notMem_renderItems items)
    simp [render, hitems]
  | .obj fields => by
    have hfields := newline_notMem_separate (newline_notMem_renderFields fields)
    simp [render, hfields]

theorem newline_notMem_renderItems : ∀ (items : List Json), ∀ text ∈ renderItems items, '\n' ∉ text
  | [] => by simp [renderItems]
  | item :: items => List.forall_mem_cons.2
    ⟨newline_notMem_render item, newline_notMem_renderItems items⟩

theorem newline_notMem_renderFields :
    ∀ (fields : List (String × Json)), ∀ text ∈ renderFields fields, '\n' ∉ text
  | [] => by simp [renderFields]
  | (name, value) :: fields => by
    have hname := newline_notMem_quote name
    have hvalue := newline_notMem_render value
    exact List.forall_mem_cons.2
      ⟨by simp [hname, hvalue], newline_notMem_renderFields fields⟩

end

end FsTrace.Json
