import Mathlib.Tactic.IntervalCases
import ImportAtlas.Json.Printer
import ImportAtlas.Proofs.Json.Fields
import ImportAtlas.Proofs.Json.Written

/-!
# Printed values are written by the grammar

However a value is laid out, its text is one that the grammar of JSON writes, with line breaks and
indentation for the blanks, and the value written there is the value that was printed. So the reader
gives back what was printed. Left out are doubles, whose digits are a matter of their own; in objects
the keys must be distinct, as they are in everything that is read.
-/

namespace ImportAtlas.Json

/-- A value without doubles whose objects have distinct keys. -/
inductive IsExact : Json → Prop
  | null : IsExact .null
  | bool (b : Bool) : IsExact (.bool b)
  | int (n : ℤ) : IsExact (.int n)
  | str (s : String) : IsExact (.str s)
  | arr {items : List Json} (h : ∀ item ∈ items, IsExact item) : IsExact (.arr items)
  | obj {fields : List (String × Json)} (hkeys : (fields.map Prod.fst).Nodup)
      (h : ∀ field ∈ fields, IsExact field.2) : IsExact (.obj fields)

section Numbers

/-- The digits of a number other than zero do not begin with a zero. -/
theorem exists_toDigits {n : ℕ} (h : 0 < n) :
    ∃ d digits, Nat.toDigits 10 n = d :: digits ∧ d ≠ '0' := by
  induction n using Nat.strongRecOn with
  | _ n ih =>
    by_cases hsmall : n < 10
    · refine ⟨_, [], Nat.toDigits_of_lt_base hsmall, ?_⟩
      interval_cases n <;> decide
    · obtain ⟨d, digits, hfirst, hd⟩ := ih (n / 10) (by omega) (by omega)
      refine ⟨d, digits ++ [(n % 10).digitChar], ?_, hd⟩
      rw [Nat.toDigits_of_base_le (by decide) (by omega), hfirst, List.cons_append]

/-- The digits of a number write it. -/
theorem digitsValue_toDigits (n : ℕ) : digitsValue (Nat.toDigits 10 n) = n := by
  have hstep : (fun (m : ℕ) (c : Char) => m * 10 + digitValue c) =
      fun m c => 10 * m + (c.toNat - '0'.toNat) := by
    funext m c
    rw [Nat.mul_comm, digitValue]
  rw [digitsValue, hstep]
  exact Nat.ofDigitChars_toDigits (by decide) (by decide)

/-- The reader takes all digits of a number. -/
theorem takeWhole_toDigits (n : ℕ) : takeWhole (Nat.toDigits 10 n) = some (Nat.toDigits 10 n, []) := by
  rcases Nat.eq_zero_or_pos n with rfl | hpos
  · rfl
  · obtain ⟨d, digits, hdigits, hd⟩ := exists_toDigits hpos
    have hall : ∀ c ∈ d :: digits, c.isDigit := fun c hc =>
      Nat.isDigit_of_mem_toDigits (by decide) (Nat.le_refl 10) (hdigits ▸ hc)
    obtain ⟨hfirst, hothers⟩ := List.forall_mem_cons.mp hall
    rw [hdigits, takeWhole, if_neg hd, if_pos hfirst, List.takeWhile_eq_self_iff.mpr hothers,
      List.dropWhile_eq_nil_iff.mpr hothers]

/-- The reader takes the digits of a number for a whole number. -/
theorem takeUnsigned_toDigits (negative : Bool) (n : ℕ) :
    takeUnsigned negative (Nat.toDigits 10 n) = some (.int (if negative then -n else n), []) := by
  rw [takeUnsigned, takeWhole_toDigits]
  simp only [takeFraction, takeExponent, and_self, if_true, digitsValue_toDigits]

/-- The reader takes the text of a whole number. -/
theorem takeScalar_toString (n : ℤ) : takeScalar (toString n).toList = some (.int n, []) := by
  have hdigits (m : ℕ) : ∃ d digits, Nat.toDigits 10 m = d :: digits ∧ d.isDigit := by
    obtain ⟨d, digits, heq⟩ := List.exists_cons_of_ne_nil (@Nat.toDigits_ne_nil m 10)
    exact ⟨d, digits, heq, Nat.isDigit_of_mem_toDigits (by decide) (Nat.le_refl 10) (heq ▸ List.mem_cons_self)⟩
  cases n with
  | ofNat m =>
    obtain ⟨d, digits, heq, hd⟩ := hdigits m
    have htext : (toString (Int.ofNat m)).toList = Nat.toDigits 10 m := String.toList_ofList
    rw [htext, takeScalar_of_digit (.inl ⟨d, digits, heq, hd⟩), takeNumber_of_ne,
      takeUnsigned_toDigits]
    · rfl
    · rw [heq]
      rintro c hc rfl
      cases hc
      cases hd
  | negSucc m =>
    obtain ⟨d, digits, heq, hd⟩ := hdigits (m + 1)
    have htext : (toString (Int.negSucc m)).toList = '-' :: Nat.toDigits 10 (m + 1) := by
      change ("-" ++ String.ofList (Nat.toDigits 10 (m + 1))).toList = _
      rw [String.toList_append, String.toList_ofList, String.toList_ofList]
      rfl
    rw [htext, takeScalar_of_digit (.inr ⟨d, digits, by rw [heq], hd⟩), takeNumber_minus,
      takeUnsigned_toDigits]
    rfl

end Numbers

section Strings

variable {n : ℕ} {c : Char}

/-- A digit has its value. -/
theorem hexValue_hexDigit (h : n < 16) : hexValue (Text.hexDigit n) = some n := by
  interval_cases n <;> decide

/-- Four digits write a number that needs no more. -/
theorem isCodeUnit_hexDigits (h : n < 0x10000) : IsCodeUnit (Text.hexDigits 4 n) n := by
  have hdigit (place : ℕ) : hexValue (Text.hexDigit (n / Nat.pow 16 place % 16)) =
      some (n / Nat.pow 16 place % 16) := hexValue_hexDigit (Nat.mod_lt _ (by decide))
  have hdigits : Text.hexDigits 4 n = [Text.hexDigit (n / Nat.pow 16 3 % 16),
      Text.hexDigit (n / Nat.pow 16 2 % 16), Text.hexDigit (n / Nat.pow 16 1 % 16),
      Text.hexDigit (n / Nat.pow 16 0 % 16)] := rfl
  refine ⟨Text.length_hexDigits 4 n, ?_, fun rest => ?_⟩
  · intro c hc
    obtain ⟨place, -, rfl⟩ := List.mem_map.mp hc
    rw [hdigit, Option.isSome_some]
  · have hsum : ((n / Nat.pow 16 3 % 16 * 16 + n / Nat.pow 16 2 % 16) * 16 +
        n / Nat.pow 16 1 % 16) * 16 + n / Nat.pow 16 0 % 16 = n := by
      norm_num
      omega
    simp only [hdigits, List.cons_append, List.nil_append, takeUnit, hdigit, bind, Option.bind_some,
      hsum]

/-- The first halves of pairs. -/
theorem isHighUnit_iff : isHighUnit n ↔ 0xD800 ≤ n ∧ n < 0xDC00 := by
  simp [isHighUnit]

/-- The second halves of pairs. -/
theorem isLowUnit_iff : isLowUnit n ↔ 0xDC00 ≤ n ∧ n < 0xE000 := by
  simp [isLowUnit]

/-- A character is a number that is no half of a pair. -/
theorem toNat_cases (c : Char) : c.toNat < 0xD800 ∨ 0xDFFF < c.toNat ∧ c.toNat < 0x110000 := c.valid

/-- The escape of a character that needs no pair stands for it. -/
theorem escapes_unit (h : c.toNat < 0x10000) (rest : List Char) :
    Escapes rest ('u' :: Text.hexDigits 4 c.toNat) c := by
  have hvalid := toNat_cases c
  have hhigh : ¬ isHighUnit c.toNat := by rw [isHighUnit_iff]; omega
  have hlow : ¬ isLowUnit c.toNat := by rw [isLowUnit_iff]; omega
  have hchar : unitChar c.toNat = c := by simp [unitChar, hhigh, hlow]
  have hescapes : Escapes rest ('u' :: Text.hexDigits 4 c.toNat) (unitChar c.toNat) :=
    .unit (isCodeUnit_hexDigits h) fun hhalf => absurd hhalf hhigh
  rwa [hchar] at hescapes

/-- The escape of a character that needs a pair stands for it. -/
theorem escapes_pair (h : 0x10000 ≤ c.toNat) (rest : List Char) :
    Escapes rest ('u' :: Text.hexDigits 4 (0xD800 + (c.toNat - 0x10000) / 0x400) ++
      '\\' :: 'u' :: Text.hexDigits 4 (0xDC00 + (c.toNat - 0x10000) % 0x400)) c := by
  have hvalid := toNat_cases c
  have hnumber : 0x10000 + (0xD800 + (c.toNat - 0x10000) / 0x400 - 0xD800) * 0x400 +
      (0xDC00 + (c.toNat - 0x10000) % 0x400 - 0xDC00) = c.toNat := by omega
  have hchar : pairChar (0xD800 + (c.toNat - 0x10000) / 0x400)
      (0xDC00 + (c.toNat - 0x10000) % 0x400) = c := by
    rw [pairChar, hnumber, Char.ofNat_toNat]
  have hescapes := @Escapes.pair rest _ _ _ _
    (isCodeUnit_hexDigits (n := 0xD800 + (c.toNat - 0x10000) / 0x400) (by omega))
    (isCodeUnit_hexDigits (n := 0xDC00 + (c.toNat - 0x10000) % 0x400) (by omega))
    (isHighUnit_iff.mpr (by omega)) (isLowUnit_iff.mpr (by omega))
  rwa [hchar] at hescapes

/-- A character that a letter stands for is written by the letter, except for a slash. -/
theorem escapeChar_short (asciiOnly : Bool) :
    ∀ entry ∈ shortEscapes, entry.2 ≠ '/' → escapeChar asciiOnly entry.2 = ['\\', entry.1] := by
  cases asciiOnly <;> decide

/-- Any other character is written as it is, or by its number. -/
theorem escapeChar_long (asciiOnly : Bool)
    (h : ∀ entry ∈ shortEscapes, entry.2 ≠ '/' → c ≠ entry.2) :
    escapeChar asciiOnly c =
      if c.toNat < 32 then unitEscape c.toNat
      else if asciiOnly && 127 ≤ c.toNat then
        if c.toNat < 0x10000 then unitEscape c.toNat
        else unitEscape (0xD800 + (c.toNat - 0x10000) / 0x400) ++
          unitEscape (0xDC00 + (c.toNat - 0x10000) % 0x400)
      else [c] := by
  have hne (mark d : Char) (hentry : (mark, d) ∈ shortEscapes) (hd : d ≠ '/') : c ≠ d :=
    h (mark, d) hentry hd
  rw [escapeChar, if_neg (hne '\x22' _ (by decide) (by decide)), if_neg (hne '\\' _ (by decide) (by decide)),
    if_neg (hne 'n' _ (by decide) (by decide)), if_neg (hne 'r' _ (by decide) (by decide)),
    if_neg (hne 't' _ (by decide) (by decide)), if_neg (hne 'b' _ (by decide) (by decide)),
    if_neg (hne 'f' _ (by decide) (by decide))]

/-- A character is written as it is, unless it must be escaped, or as an escape of it. -/
theorem escapeChar_cases (asciiOnly : Bool) (c : Char) :
    (escapeChar asciiOnly c = [c] ∧ c ≠ '\x22' ∧ c ≠ '\\' ∧ ¬ c.toNat < 32) ∨
      ∃ e, escapeChar asciiOnly c = '\\' :: e ∧ ∀ rest, Escapes rest e c := by
  by_cases hshort : ∃ entry ∈ shortEscapes, entry.2 ≠ '/' ∧ c = entry.2
  · obtain ⟨entry, hentry, hslash, rfl⟩ := hshort
    exact .inr ⟨[entry.1], escapeChar_short asciiOnly entry hentry hslash, fun _ => .short hentry⟩
  have hlong : ∀ entry ∈ shortEscapes, entry.2 ≠ '/' → c ≠ entry.2 := fun entry hentry hslash hc =>
    hshort ⟨entry, hentry, hslash, hc⟩
  rw [escapeChar_long asciiOnly hlong]
  by_cases hcontrol : c.toNat < 32
  · rw [if_pos hcontrol]
    exact .inr ⟨_, rfl, escapes_unit (by omega)⟩
  rw [if_neg hcontrol]
  by_cases hascii : asciiOnly && 127 ≤ c.toNat
  · rw [if_pos hascii]
    by_cases hunit : c.toNat < 0x10000
    · rw [if_pos hunit]
      exact .inr ⟨_, rfl, escapes_unit hunit⟩
    · rw [if_neg hunit]
      exact .inr ⟨_, rfl, escapes_pair (Nat.le_of_not_lt hunit)⟩
  · rw [if_neg hascii]
    exact .inl ⟨rfl, hlong ('\x22', '\x22') (by decide) (by decide),
      hlong ('\\', '\\') (by decide) (by decide), hcontrol⟩

/-- What is written between the quotes spells the text. -/
theorem spells_escaped (asciiOnly : Bool) (text : List Char) :
    Spells (text.flatMap (escapeChar asciiOnly)) text := by
  induction text with
  | nil => exact .nil
  | cons c text ih =>
    rw [List.flatMap_cons]
    rcases escapeChar_cases asciiOnly c with ⟨hplain, hquote, hslash, hcontrol⟩ | ⟨e, he, hescapes⟩
    · rw [hplain]
      exact .plain hquote hslash hcontrol ih
    · rw [he]
      exact .escaped (hescapes _) ih

/-- A string is printed as a quotation of it. -/
theorem exists_quotation (asciiOnly : Bool) (s : String) :
    ∃ q : Quotation, q.text = quote asciiOnly s ∧ q.value = s := by
  have hspells := spells_escaped asciiOnly s.toList
  refine ⟨⟨_, _, hspells⟩, rfl, ?_⟩
  rw [Quotation.value_eq hspells, String.ofList_toList]

end Strings

section Layout

variable {style : Style} {v item : Json} {items : List Json} {depth : ℕ}

/-- No blanks. -/
def Gap.none : Gap := ⟨[], List.forall_mem_nil _⟩

/-- One blank. -/
def Gap.single : Gap := ⟨[' '], List.forall_mem_singleton.mpr rfl⟩

/-- What stands before an item or a closing bracket are blanks. -/
theorem exists_gap_lineBreak (style : Style) (depth : ℕ) : ∃ gap : Gap, gap.text = style.lineBreak depth := by
  refine ⟨⟨style.lineBreak depth, fun c hc => ?_⟩, rfl⟩
  rw [Style.lineBreak] at hc
  split at hc
  · cases hc
  · rcases List.mem_cons.mp hc with rfl | hc
    · rfl
    · rw [List.eq_of_mem_replicate hc]
      rfl

/-- What stands between two items is a comma and blanks. -/
theorem exists_gap_separator (style : Style) (depth : ℕ) :
    ∃ gap : Gap, style.separator depth = ',' :: gap.text := by
  rw [Style.separator]
  split
  · exact ⟨.single, rfl⟩
  · obtain ⟨gap, hgap⟩ := exists_gap_lineBreak style depth
    exact ⟨gap, by rw [hgap]⟩

/-- A value is printed, at a depth, as the grammar writes it. -/
def IsWritten (style : Style) (depth : ℕ) (v : Json) : Prop :=
  ∃ w : Written, w.text = writeValue style depth v ∧ w.value = v

/-- A literal or a number is printed as the grammar writes it, if the reader takes it. -/
theorem isWritten_of_takeScalar (h : takeScalar (writeValue style depth v) = some (v, [])) :
    IsWritten style depth v := by
  obtain ⟨scalar, htext, hvalue⟩ := Scalar.exists_of_takeScalar h
  exact ⟨.scalar scalar, by rw [Written.text, htext, List.append_nil], hvalue⟩

/-- A field is printed as its key and its value. -/
theorem writeField_eq (style : Style) (depth : ℕ) (field : String × Json) :
    writeField style depth field =
      quote style.asciiOnly field.1 ++ [':', ' '] ++ writeValue style depth field.2 := by
  rw [writeField]

/-- Items are printed as the grammar writes them, if each of them is. -/
theorem exists_writtenItems (lead trail : Gap) (h : ∀ v ∈ item :: items, IsWritten style depth v) :
    ∃ written : WrittenItems, written.values = item :: items ∧ written.text =
      lead.text ++ writeValue style depth item ++ writeItems style depth items ++ trail.text := by
  induction items generalizing item lead with
  | nil =>
    obtain ⟨w, hw, hvalue⟩ := h item List.mem_cons_self
    refine ⟨.last lead w trail, by rw [WrittenItems.values, hvalue], ?_⟩
    rw [WrittenItems.text, hw, writeItems, List.append_nil]
  | cons next items ih =>
    obtain ⟨⟨w, hw, hvalue⟩, hothers⟩ := List.forall_mem_cons.mp h
    obtain ⟨gap, hgap⟩ := exists_gap_separator style depth
    obtain ⟨others, hvalues, htext⟩ := ih gap hothers
    refine ⟨.more lead w .none others, by rw [WrittenItems.values, hvalue, hvalues], ?_⟩
    rw [WrittenItems.text, hw, htext, writeItems, hgap]
    simp [Gap.none]

/-- Fields are printed as the grammar writes them, if each of their values is. -/
theorem exists_writtenFields {field : String × Json} {fields : List (String × Json)} (lead trail : Gap)
    (h : ∀ f ∈ field :: fields, IsWritten style depth f.2) :
    ∃ written : WrittenFields, written.fields = field :: fields ∧ written.text =
      lead.text ++ writeField style depth field ++ writeFields style depth fields ++ trail.text := by
  have hkey (lead : Gap) (field : String × Json) : ∃ key : WrittenKey, key.name.value = field.1 ∧
      key.text = lead.text ++ quote style.asciiOnly field.1 ++ [':', ' '] := by
    obtain ⟨q, hq, hvalue⟩ := exists_quotation style.asciiOnly field.1
    refine ⟨⟨lead, q, .none, .single⟩, hvalue, ?_⟩
    simp [WrittenKey.text, Gap.none, Gap.single, hq]
  induction fields generalizing field lead with
  | nil =>
    obtain ⟨w, hw, hvalue⟩ := h field List.mem_cons_self
    obtain ⟨key, hname, htext⟩ := hkey lead field
    refine ⟨.last key w trail, by rw [WrittenFields.fields, hname, hvalue], ?_⟩
    rw [WrittenFields.text, hw, htext, writeFields, writeField_eq]
    simp
  | cons next fields ih =>
    obtain ⟨⟨w, hw, hvalue⟩, hothers⟩ := List.forall_mem_cons.mp h
    obtain ⟨gap, hgap⟩ := exists_gap_separator style depth
    obtain ⟨key, hname, hkeyText⟩ := hkey lead field
    obtain ⟨others, hfields, htext⟩ := ih gap hothers
    refine ⟨.more key w .none others, by rw [WrittenFields.fields, hname, hvalue, hfields], ?_⟩
    rw [WrittenFields.text, hw, hkeyText, htext, writeFields, hgap, writeField_eq style depth field]
    simp [Gap.none]

/-- A value is printed as the grammar writes it. -/
theorem IsExact.isWritten (h : IsExact v) (style : Style) (depth : ℕ) : IsWritten style depth v := by
  induction h generalizing depth with
  | null => exact isWritten_of_takeScalar rfl
  | bool b => cases b <;> exact isWritten_of_takeScalar rfl
  | int n => exact isWritten_of_takeScalar (takeScalar_toString n)
  | str s =>
    obtain ⟨q, htext, hvalue⟩ := exists_quotation style.asciiOnly s
    exact ⟨.quotation q, htext, congrArg Json.str hvalue⟩
  | @arr items _ ih =>
    cases items with
    | nil => exact ⟨.emptyArray .none, rfl, rfl⟩
    | cons item items =>
      obtain ⟨lead, hlead⟩ := exists_gap_lineBreak style (depth + 1)
      obtain ⟨trail, htrail⟩ := exists_gap_lineBreak style depth
      obtain ⟨written, hvalues, htext⟩ := exists_writtenItems lead trail fun v hv => ih v hv (depth + 1)
      refine ⟨.array written, ?_, congrArg Json.arr hvalues⟩
      rw [Written.text, htext, writeValue, hlead, htrail]
      simp
  | @obj fields hkeys _ ih =>
    cases fields with
    | nil => exact ⟨.emptyObject .none, rfl, rfl⟩
    | cons field fields =>
      obtain ⟨lead, hlead⟩ := exists_gap_lineBreak style (depth + 1)
      obtain ⟨trail, htrail⟩ := exists_gap_lineBreak style depth
      obtain ⟨written, hfields, htext⟩ := exists_writtenFields lead trail fun f hf => ih f hf (depth + 1)
      refine ⟨.object written, ?_, ?_⟩
      · rw [Written.text, htext, writeValue, hlead, htrail]
        simp
      · rw [Written.value, hfields, mergeFields_eq_self hkeys]

/-- The reader gives back what is printed. -/
theorem IsExact.read?_print (h : IsExact v) (style : Style) : read? (print style v).toList = some v := by
  obtain ⟨w, hw, hvalue⟩ := h.isWritten style 0
  rw [read?_eq_some_iff]
  refine ⟨⟨.none, w, .none⟩, ?_, hvalue⟩
  simp [WrittenText.text, Gap.none, print, hw]

end Layout

end ImportAtlas.Json
