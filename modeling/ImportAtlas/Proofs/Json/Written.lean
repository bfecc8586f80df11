import Mathlib.Data.List.TakeWhile
import ImportAtlas.Proofs.Json.Quotations
import ImportAtlas.Proofs.Json.Scalars

/-!
# Values as JSON writes them

The grammar of JSON as trees that keep everything a text holds, blanks and escapes included. The reader
takes the text of each tree and gives its value, and whatever it takes is the text of a tree: a text is
accepted exactly if it is written by the grammar.
-/

namespace ImportAtlas.Json

/-- Blanks between the parts of a value. -/
structure Gap where
  text : List Char
  isGap_of_mem : ∀ c ∈ text, isGap c

/-- A string in its quotes. -/
def Quotation.text (q : Quotation) : List Char := '\x22' :: q.body ++ ['\x22']

/-- A key with the blanks around it and around its colon. -/
structure WrittenKey where
  lead : Gap
  name : Quotation
  beforeColon : Gap
  afterColon : Gap

/-- The text of a key up to its value. -/
def WrittenKey.text (key : WrittenKey) : List Char :=
  key.lead.text ++ key.name.text ++ key.beforeColon.text ++ ':' :: key.afterColon.text

mutual

/-- A value as it is written. -/
inductive Written where
  /-- A literal or a number. -/
  | scalar (scalar : Scalar)
  /-- A string. -/
  | quotation (quotation : Quotation)
  /-- An array without items. -/
  | emptyArray (gap : Gap)
  /-- An array with items. -/
  | array (items : WrittenItems)
  /-- An object without fields. -/
  | emptyObject (gap : Gap)
  /-- An object with fields. -/
  | object (fields : WrittenFields)

/-- The items of an array as they are written, each with the blanks around it. -/
inductive WrittenItems where
  | last (lead : Gap) (item : Written) (trail : Gap)
  | more (lead : Gap) (item : Written) (trail : Gap) (others : WrittenItems)

/-- The fields of an object as they are written. -/
inductive WrittenFields where
  | last (key : WrittenKey) (value : Written) (trail : Gap)
  | more (key : WrittenKey) (value : Written) (trail : Gap) (others : WrittenFields)

end

mutual

/-- The text of a value. -/
def Written.text : Written → List Char
  | .scalar scalar => scalar.text
  | .quotation quotation => quotation.text
  | .emptyArray gap => '[' :: gap.text ++ [']']
  | .array items => '[' :: items.text ++ [']']
  | .emptyObject gap => '\x7b' :: gap.text ++ ['\x7d']
  | .object fields => '\x7b' :: fields.text ++ ['\x7d']

/-- The text of the items between the brackets. -/
def WrittenItems.text : WrittenItems → List Char
  | .last lead item trail => lead.text ++ item.text ++ trail.text
  | .more lead item trail others => lead.text ++ item.text ++ trail.text ++ ',' :: others.text

/-- The text of the fields between the braces. -/
def WrittenFields.text : WrittenFields → List Char
  | .last key value trail => key.text ++ value.text ++ trail.text
  | .more key value trail others => key.text ++ value.text ++ trail.text ++ ',' :: others.text

end

mutual

/-- The value that is written. -/
def Written.value : Written → Json
  | .scalar scalar => scalar.value
  | .quotation quotation => .str quotation.value
  | .emptyArray _ => .arr []
  | .array items => .arr items.values
  | .emptyObject _ => .obj []
  | .object fields => .obj (mergeFields fields.fields)

/-- The items that are written. -/
def WrittenItems.values : WrittenItems → List Json
  | .last _ item _ => [item.value]
  | .more _ item _ others => item.value :: others.values

/-- The fields that are written, with repeated keys. -/
def WrittenFields.fields : WrittenFields → List (String × Json)
  | .last key value _ => [(key.name.value, value.value)]
  | .more key value _ others => (key.name.value, value.value) :: others.fields

end

variable {s rest : List Char} {c : Char} {fuel : ℕ}

namespace Gap

/-- A text is blanks and what is left when they are skipped. -/
theorem exists_append_skipGap (s : List Char) : ∃ gap : Gap, s = gap.text ++ skipGap s :=
  ⟨⟨s.takeWhile isGap, List.all_eq_true.mp List.all_takeWhile⟩,
    List.takeWhile_append_dropWhile.symm⟩

/-- Nothing is left of blanks. -/
theorem skipGap_text (gap : Gap) : skipGap gap.text = [] :=
  List.dropWhile_eq_nil_iff.mpr gap.isGap_of_mem

/-- Skipping blanks leaves what stands behind them. -/
theorem skipGap_append (gap : Gap) (hc : isGap c = false) :
    skipGap (gap.text ++ c :: rest) = c :: rest :=
  Text.dropWhile_run gap.isGap_of_mem (Text.stops_cons.mpr hc)

/-- Neither a literal nor a number goes on with a blank. -/
theorem inScalar_eq_false (h : isGap c) : inScalar c = false := by
  simp only [isGap, Bool.or_eq_true, beq_iff_eq] at h
  rcases h with ((rfl | rfl) | rfl) | rfl <;> decide

/-- Neither a literal nor a number goes on before blanks. -/
theorem stops (gap : Gap) : Text.Stops inScalar gap.text := fun c hc =>
  inScalar_eq_false (gap.isGap_of_mem c (List.mem_of_head? hc))

/-- Neither a literal nor a number goes on before a mark that blanks may part from it. -/
theorem stops_append (gap : Gap) (hc : inScalar c = false) :
    Text.Stops inScalar (gap.text ++ c :: rest) := by
  intro d hd
  cases hgap : gap.text with
  | nil =>
    rw [hgap] at hd
    cases hd
    exact hc
  | cons b others =>
    rw [hgap] at hd
    cases hd
    exact inScalar_eq_false (gap.isGap_of_mem d (by simp [hgap]))

end Gap

/-- A value begins with a character that is no blank and closes nothing. -/
theorem Written.exists_cons (w : Written) :
    ∃ c others, w.text = c :: others ∧ Text.isBlank c = false ∧ c ≠ ']' ∧ c ≠ '\x7d' := by
  cases w with
  | scalar scalar =>
    rw [text]
    cases hscalar : scalar.text with
    | nil => exact absurd hscalar scalar.text_ne_nil
    | cons c others =>
      have hc := scalar.inScalar_of_mem c (by simp [hscalar])
      refine ⟨c, others, rfl, ?_, ?_, ?_⟩
      · exact isBlank_eq_false hc
      · rintro rfl; exact absurd hc (by decide)
      · rintro rfl; exact absurd hc (by decide)
  | quotation quotation => exact ⟨'\x22', _, rfl, by decide, by decide, by decide⟩
  | emptyArray gap => exact ⟨'[', _, rfl, by decide, by decide, by decide⟩
  | array items => exact ⟨'[', _, rfl, by decide, by decide, by decide⟩
  | emptyObject gap => exact ⟨'\x7b', _, rfl, by decide, by decide, by decide⟩
  | object fields => exact ⟨'\x7b', _, rfl, by decide, by decide, by decide⟩

/-- A value has at least one character. -/
theorem Written.length_text_pos (w : Written) : 0 < w.text.length := by
  obtain ⟨c, others, htext, -⟩ := w.exists_cons
  rw [htext]
  exact Nat.succ_pos _

/-- A blank of the grammar is a blank. -/
theorem isBlank_of_isGap (h : isGap c) : Text.isBlank c := by
  simp only [isGap, Bool.or_eq_true, beq_iff_eq] at h
  rcases h with ((rfl | rfl) | rfl) | rfl <;> decide

/-- Behind blanks, a value begins with a character that is no blank and closes nothing. -/
theorem Written.exists_skipGap (lead : Gap) (w : Written) (rest : List Char) :
    ∃ c others, skipGap (lead.text ++ w.text ++ rest) = c :: others ∧ c :: others = w.text ++ rest ∧
      c ≠ ']' ∧ c ≠ '\x7d' := by
  obtain ⟨c, others, htext, hblank, hbracket, hbrace⟩ := w.exists_cons
  have hgap : isGap c = false := Bool.eq_false_iff.mpr fun h => by
    simp [isBlank_of_isGap h] at hblank
  refine ⟨c, others ++ rest, ?_, by rw [htext]; rfl, hbracket, hbrace⟩
  rw [List.append_assoc, htext, List.cons_append, lead.skipGap_append hgap]

/-- Items do not begin with the closing bracket. -/
theorem WrittenItems.skipGap_ne (items : WrittenItems) (rest others : List Char) :
    skipGap (items.text ++ rest) ≠ ']' :: others := by
  cases items with
  | last lead item trail =>
    obtain ⟨c, following, hskip, -, hbracket, -⟩ := item.exists_skipGap lead (trail.text ++ rest)
    rw [WrittenItems.text, List.append_assoc _ trail.text, hskip]
    exact fun h => hbracket (List.cons.inj h).1
  | more lead item trail items =>
    obtain ⟨c, following, hskip, -, hbracket, -⟩ :=
      item.exists_skipGap lead (trail.text ++ ',' :: items.text ++ rest)
    have htext : (WrittenItems.more lead item trail items).text ++ rest =
        lead.text ++ item.text ++ (trail.text ++ ',' :: items.text ++ rest) := by
      simp [WrittenItems.text]
    rw [htext, hskip]
    exact fun h => hbracket (List.cons.inj h).1

/-- A key begins with a quote behind its blanks. -/
theorem WrittenKey.skipGap_ne (key : WrittenKey) (rest others : List Char) :
    skipGap (key.text ++ rest) ≠ '\x7d' :: others := by
  have hkey : key.text ++ rest = key.lead.text ++ '\x22' :: (key.name.body ++ '\x22' ::
      (key.beforeColon.text ++ ':' :: (key.afterColon.text ++ rest))) := by
    simp [WrittenKey.text, Quotation.text]
  rw [hkey, key.lead.skipGap_append (by decide)]
  exact fun h => absurd (List.cons.inj h).1 (by decide)

/-- Fields do not begin with the closing brace. -/
theorem WrittenFields.skipGap_ne (fields : WrittenFields) (rest others : List Char) :
    skipGap (fields.text ++ rest) ≠ '\x7d' :: others := by
  cases fields with
  | last key value trail =>
    rw [WrittenFields.text, List.append_assoc, List.append_assoc]
    exact key.skipGap_ne _ _
  | more key value trail fields =>
    rw [WrittenFields.text, List.append_assoc, List.append_assoc, List.append_assoc]
    exact key.skipGap_ne _ _

/-- The reader takes a literal or a number for a value. -/
theorem takeValue_scalar (scalar : Scalar) (fuel : ℕ) (hrest : Text.Stops inScalar rest) :
    takeValue (fuel + 1) (scalar.text ++ rest) = some (scalar.value, rest) := by
  have hall := scalar.inScalar_of_mem
  rw [← scalar.takeScalar_append rest hrest]
  cases hscalar : scalar.text with
  | nil => exact absurd hscalar scalar.text_ne_nil
  | cons c others =>
    have hc : inScalar c := hall c (by simp [hscalar])
    unfold takeValue
    split
    · next heq => exact absurd ((List.cons.inj heq).1 ▸ hc) (by decide)
    · next heq => exact absurd ((List.cons.inj heq).1 ▸ hc) (by decide)
    · next heq => exact absurd ((List.cons.inj heq).1 ▸ hc) (by decide)
    · rfl

/-- The reader takes an array for a value, if it takes the items up to the bracket. -/
theorem takeValue_array {items : List Json} (hs : ∀ others, skipGap s ≠ ']' :: others)
    (h : takeItems fuel (skipGap s) = some (items, rest)) :
    takeValue (fuel + 1) ('[' :: s) = some (.arr items, rest) := by
  rw [takeValue]
  split
  · next others heq => exact absurd heq (hs others)
  · rw [h]
    rfl

/-- The reader takes an object for a value, if it takes the fields up to the brace. -/
theorem takeValue_object {fields : List (String × Json)}
    (hs : ∀ others, skipGap s ≠ '\x7d' :: others)
    (h : takeFields fuel (skipGap s) = some (fields, rest)) :
    takeValue (fuel + 1) ('\x7b' :: s) = some (.obj (mergeFields fields), rest) := by
  rw [takeValue]
  split
  · next others heq => exact absurd heq (hs others)
  · rw [h]
    rfl

/-- The reader takes a key up to its value. -/
theorem takeFields_key (key : WrittenKey) (w : Written) (fuel : ℕ) (following : List Char) :
    takeFields (fuel + 1) (skipGap (key.text ++ w.text ++ following)) =
      match takeValue fuel (w.text ++ following) with
      | none => none
      | some (value, rest) =>
        match skipGap rest with
        | '\x7d' :: rest => some ([(key.name.value, value)], rest)
        | ',' :: rest =>
          (takeFields fuel (skipGap rest)).map fun (fields, rest) =>
            ((key.name.value, value) :: fields, rest)
        | _ => none := by
  obtain ⟨c, others, hskip, heq, -, -⟩ := w.exists_skipGap key.afterColon following
  have hkey : key.text ++ w.text ++ following = key.lead.text ++ '\x22' :: (key.name.body ++ '\x22' ::
      (key.beforeColon.text ++ ':' :: (key.afterColon.text ++ w.text ++ following))) := by
    simp [WrittenKey.text, Quotation.text]
  rw [hkey, key.lead.skipGap_append (by decide), takeFields, key.name.takeText_append]
  dsimp only
  rw [key.beforeColon.skipGap_append (by decide), ← heq, ← hskip]
  rfl

mutual

/-- The reader takes a value that is written, wherever nothing goes on with it. -/
theorem Written.takeValue_append : ∀ (w : Written) {fuel : ℕ} {rest : List Char},
    2 * w.text.length ≤ fuel → Text.Stops inScalar rest →
      takeValue fuel (w.text ++ rest) = some (w.value, rest)
  | .scalar scalar, fuel, rest, hfuel, hrest => by
    have hpos := List.length_pos_iff.mpr scalar.text_ne_nil
    obtain ⟨fuel, rfl⟩ : ∃ n, fuel = n + 1 := ⟨fuel - 1, by rw [Written.text] at hfuel; omega⟩
    exact takeValue_scalar scalar fuel hrest
  | .quotation quotation, fuel, rest, hfuel, hrest => by
    obtain ⟨fuel, rfl⟩ : ∃ n, fuel = n + 1 :=
      ⟨fuel - 1, by simp [Written.text, Quotation.text] at hfuel; omega⟩
    have htake := quotation.takeText_append rest
    rw [Written.text, Quotation.text, List.append_assoc, List.cons_append, List.singleton_append,
      takeValue, htake]
    rfl
  | .emptyArray gap, fuel, rest, hfuel, hrest => by
    obtain ⟨fuel, rfl⟩ : ∃ n, fuel = n + 1 := ⟨fuel - 1, by simp [Written.text] at hfuel; omega⟩
    rw [Written.text, List.append_assoc, List.cons_append, List.singleton_append, takeValue,
      gap.skipGap_append (by decide)]
    rfl
  | .array items, fuel, rest, hfuel, hrest => by
    obtain ⟨fuel, rfl⟩ : ∃ n, fuel = n + 1 := ⟨fuel - 1, by simp [Written.text] at hfuel; omega⟩
    rw [Written.text, List.append_assoc, List.cons_append, List.singleton_append]
    exact takeValue_array (items.skipGap_ne _)
      (items.takeItems_append (by simp [Written.text] at hfuel; omega))
  | .emptyObject gap, fuel, rest, hfuel, hrest => by
    obtain ⟨fuel, rfl⟩ : ∃ n, fuel = n + 1 := ⟨fuel - 1, by simp [Written.text] at hfuel; omega⟩
    rw [Written.text, List.append_assoc, List.cons_append, List.singleton_append, takeValue,
      gap.skipGap_append (by decide)]
    rfl
  | .object fields, fuel, rest, hfuel, hrest => by
    obtain ⟨fuel, rfl⟩ : ∃ n, fuel = n + 1 := ⟨fuel - 1, by simp [Written.text] at hfuel; omega⟩
    rw [Written.text, List.append_assoc, List.cons_append, List.singleton_append]
    exact takeValue_object (fields.skipGap_ne _)
      (fields.takeFields_append (by simp [Written.text] at hfuel; omega))

/-- The reader takes the items that are written up to the closing bracket. -/
theorem WrittenItems.takeItems_append : ∀ (items : WrittenItems) {fuel : ℕ} {rest : List Char},
    2 * items.text.length + 1 ≤ fuel →
      takeItems fuel (skipGap (items.text ++ ']' :: rest)) = some (items.values, rest)
  | .last lead item trail, fuel, rest, hfuel => by
    obtain ⟨fuel, rfl⟩ : ∃ n, fuel = n + 1 := ⟨fuel - 1, by omega⟩
    obtain ⟨c, others, hskip, heq, -, -⟩ := item.exists_skipGap lead (trail.text ++ ']' :: rest)
    have hitem := @Written.takeValue_append item fuel (trail.text ++ ']' :: rest)
      (by simp [WrittenItems.text] at hfuel; omega) (trail.stops_append (by decide))
    rw [WrittenItems.text, List.append_assoc _ trail.text, hskip, heq, takeItems, hitem]
    dsimp only
    rw [trail.skipGap_append (by decide)]
    rfl
  | .more lead item trail others, fuel, rest, hfuel => by
    obtain ⟨fuel, rfl⟩ : ∃ n, fuel = n + 1 := ⟨fuel - 1, by omega⟩
    have hpos : 0 < item.text.length := item.length_text_pos
    obtain ⟨c, following, hskip, heq, -, -⟩ :=
      item.exists_skipGap lead (trail.text ++ ',' :: (others.text ++ ']' :: rest))
    have hitem := @Written.takeValue_append item fuel
      (trail.text ++ ',' :: (others.text ++ ']' :: rest))
      (by simp [WrittenItems.text] at hfuel; omega) (trail.stops_append (by decide))
    have hothers := @WrittenItems.takeItems_append others fuel rest
      (by simp [WrittenItems.text] at hfuel; omega)
    have htext : (WrittenItems.more lead item trail others).text ++ ']' :: rest =
        lead.text ++ item.text ++ (trail.text ++ ',' :: (others.text ++ ']' :: rest)) := by
      simp [WrittenItems.text]
    rw [htext, hskip, heq, takeItems, hitem]
    dsimp only
    rw [trail.skipGap_append (by decide)]
    change (takeItems fuel (skipGap (others.text ++ ']' :: rest))).map _ = _
    rw [hothers]
    rfl

/-- The reader takes the fields that are written up to the closing brace. -/
theorem WrittenFields.takeFields_append : ∀ (fields : WrittenFields) {fuel : ℕ} {rest : List Char},
    2 * fields.text.length + 1 ≤ fuel →
      takeFields fuel (skipGap (fields.text ++ '\x7d' :: rest)) = some (fields.fields, rest)
  | .last key value trail, fuel, rest, hfuel => by
    obtain ⟨fuel, rfl⟩ : ∃ n, fuel = n + 1 := ⟨fuel - 1, by omega⟩
    have hvalue := @Written.takeValue_append value fuel (trail.text ++ '\x7d' :: rest)
      (by simp [WrittenFields.text] at hfuel; omega) (trail.stops_append (by decide))
    rw [WrittenFields.text, List.append_assoc _ trail.text, takeFields_key, hvalue]
    dsimp only
    rw [trail.skipGap_append (by decide)]
    rfl
  | .more key value trail others, fuel, rest, hfuel => by
    obtain ⟨fuel, rfl⟩ : ∃ n, fuel = n + 1 := ⟨fuel - 1, by omega⟩
    have hpos : 0 < key.text.length := List.length_pos_iff.mpr (by simp [WrittenKey.text])
    have hvalue := @Written.takeValue_append value fuel
      (trail.text ++ ',' :: (others.text ++ '\x7d' :: rest))
      (by simp [WrittenFields.text] at hfuel; omega) (trail.stops_append (by decide))
    have hothers := @WrittenFields.takeFields_append others fuel rest
      (by simp [WrittenFields.text] at hfuel; omega)
    have htext : (WrittenFields.more key value trail others).text ++ '\x7d' :: rest =
        key.text ++ value.text ++ (trail.text ++ ',' :: (others.text ++ '\x7d' :: rest)) := by
      simp [WrittenFields.text]
    rw [htext, takeFields_key, hvalue]
    dsimp only
    rw [trail.skipGap_append (by decide)]
    change (takeFields fuel (skipGap (others.text ++ '\x7d' :: rest))).map _ = _
    rw [hothers]
    rfl

end

/-- What the reader takes with so much fuel is written by the grammar: a value, and behind any blanks the
items of an array and the fields of an object. -/
structure TakesWritten (fuel : ℕ) : Prop where
  value : ∀ s v rest, takeValue fuel s = some (v, rest) →
    ∃ w : Written, s = w.text ++ rest ∧ w.value = v
  items : ∀ (lead : Gap) s values rest, takeItems fuel s = some (values, rest) →
    ∃ items : WrittenItems, lead.text ++ s = items.text ++ ']' :: rest ∧ items.values = values
  fields : ∀ (lead : Gap) s given rest, takeFields fuel s = some (given, rest) →
    ∃ fields : WrittenFields, lead.text ++ s = fields.text ++ '\x7d' :: rest ∧ fields.fields = given

section Taking

variable {fuel : ℕ} {s rest : List Char} {v : Json} {values : List Json} {given : List (String × Json)}

/-- A value is a quotation, a scalar, or consists of what is taken with less fuel. -/
theorem TakesWritten.exists_value (ih : TakesWritten fuel)
    (h : takeValue (fuel + 1) s = some (v, rest)) :
    ∃ w : Written, s = w.text ++ rest ∧ w.value = v := by
  unfold takeValue at h
  split at h
  · next s =>
    obtain ⟨⟨text, rest'⟩, htake, heq⟩ := Option.map_eq_some_iff.mp h
    cases heq
    obtain ⟨q, rfl, rfl⟩ := Quotation.exists_of_takeText htake
    exact ⟨.quotation q, by simp [Written.text, Quotation.text], rfl⟩
  · next s =>
    obtain ⟨gap, hs⟩ := Gap.exists_append_skipGap s
    split at h
    · next hskip =>
      cases h
      exact ⟨.emptyArray gap, by rw [hs, hskip]; simp [Written.text], rfl⟩
    · obtain ⟨⟨values, rest'⟩, htake, heq⟩ := Option.map_eq_some_iff.mp h
      cases heq
      obtain ⟨items, htext, rfl⟩ := ih.items gap _ _ _ htake
      exact ⟨.array items, by rw [hs, htext]; simp [Written.text], rfl⟩
  · next s =>
    obtain ⟨gap, hs⟩ := Gap.exists_append_skipGap s
    split at h
    · next hskip =>
      cases h
      exact ⟨.emptyObject gap, by rw [hs, hskip]; simp [Written.text], rfl⟩
    · obtain ⟨⟨given, rest'⟩, htake, heq⟩ := Option.map_eq_some_iff.mp h
      cases heq
      obtain ⟨fields, htext, rfl⟩ := ih.fields gap _ _ _ htake
      exact ⟨.object fields, by rw [hs, htext]; simp [Written.text], rfl⟩
  · obtain ⟨scalar, rfl, rfl⟩ := Scalar.exists_of_takeScalar h
    exact ⟨.scalar scalar, rfl, rfl⟩

/-- The items of an array are a value and the items behind it. -/
theorem TakesWritten.exists_items (ih : TakesWritten fuel) (lead : Gap)
    (h : takeItems (fuel + 1) s = some (values, rest)) :
    ∃ items : WrittenItems, lead.text ++ s = items.text ++ ']' :: rest ∧ items.values = values := by
  rw [takeItems] at h
  split at h
  · cases h
  next value following htake =>
  obtain ⟨item, rfl, rfl⟩ := ih.value _ _ _ htake
  obtain ⟨trail, hfollowing⟩ := Gap.exists_append_skipGap following
  split at h
  · next others hskip =>
    cases h
    exact ⟨.last lead item trail, by rw [hfollowing, hskip]; simp [WrittenItems.text], rfl⟩
  · next others hskip =>
    obtain ⟨⟨values, rest'⟩, htake', heq⟩ := Option.map_eq_some_iff.mp h
    cases heq
    obtain ⟨next, hothers⟩ := Gap.exists_append_skipGap others
    obtain ⟨items, htext, rfl⟩ := ih.items next _ _ _ htake'
    refine ⟨.more lead item trail items, ?_, rfl⟩
    rw [hfollowing, hskip, hothers, htext]
    simp [WrittenItems.text]
  · cases h

/-- The fields of an object are a key with its value and the fields behind it. -/
theorem TakesWritten.exists_fields (ih : TakesWritten fuel) (lead : Gap)
    (h : takeFields (fuel + 1) s = some (given, rest)) :
    ∃ fields : WrittenFields,
      lead.text ++ s = fields.text ++ '\x7d' :: rest ∧ fields.fields = given := by
  unfold takeFields at h
  split at h
  · next s =>
    split at h
    · cases h
    next name following hname =>
    obtain ⟨q, rfl, rfl⟩ := Quotation.exists_of_takeText hname
    obtain ⟨beforeColon, hfollowing⟩ := Gap.exists_append_skipGap following
    split at h
    · next others hskip =>
      obtain ⟨afterColon, hothers⟩ := Gap.exists_append_skipGap others
      split at h
      · cases h
      next value behind htake =>
      obtain ⟨w, hw, rfl⟩ := ih.value _ _ _ htake
      obtain ⟨trail, hbehind⟩ := Gap.exists_append_skipGap behind
      split at h
      · next rest' hend =>
        cases h
        refine ⟨.last ⟨lead, q, beforeColon, afterColon⟩ w trail, ?_, rfl⟩
        rw [hfollowing, hskip, hothers, hw, hbehind, hend]
        simp [WrittenFields.text, WrittenKey.text, Quotation.text]
      · next rest' hend =>
        obtain ⟨⟨given, rest''⟩, htake', heq⟩ := Option.map_eq_some_iff.mp h
        cases heq
        obtain ⟨next, hnext⟩ := Gap.exists_append_skipGap rest'
        obtain ⟨fields, htext, rfl⟩ := ih.fields next _ _ _ htake'
        refine ⟨.more ⟨lead, q, beforeColon, afterColon⟩ w trail fields, ?_, rfl⟩
        rw [hfollowing, hskip, hothers, hw, hbehind, hend, hnext, htext]
        simp [WrittenFields.text, WrittenKey.text, Quotation.text]
      · cases h
    · cases h
  · cases h

/-- Whatever the fuel, what the reader takes is written by the grammar. -/
theorem takesWritten (fuel : ℕ) : TakesWritten fuel := by
  induction fuel with
  | zero => constructor <;> simp [takeValue, takeItems, takeFields]
  | succ fuel ih =>
    exact ⟨fun _ _ _ h => ih.exists_value h, fun lead _ _ _ h => ih.exists_items lead h,
      fun lead _ _ _ h => ih.exists_fields lead h⟩

end Taking

/-- A whole text as it is written: a value with the blanks around it. -/
structure WrittenText where
  lead : Gap
  value : Written
  trail : Gap

/-- The characters of a whole text. -/
def WrittenText.text (t : WrittenText) : List Char := t.lead.text ++ t.value.text ++ t.trail.text

/-- A text is accepted exactly if it is written by the grammar, and read as the value written there. -/
theorem read?_eq_some_iff {v : Json} :
    read? s = some v ↔ ∃ t : WrittenText, s = t.text ∧ t.value.value = v := by
  constructor
  · intro h
    rw [read?] at h
    split at h
    · next value rest htake =>
      split at h
      · next hend =>
        cases h
        obtain ⟨lead, hs⟩ := Gap.exists_append_skipGap s
        obtain ⟨w, hw, rfl⟩ := (takesWritten _).value _ _ _ htake
        obtain ⟨trail, hrest⟩ := Gap.exists_append_skipGap rest
        refine ⟨⟨lead, w, trail⟩, ?_, rfl⟩
        rw [hs, hw, hrest, hend]
        simp [WrittenText.text]
      · cases h
    · cases h
  · rintro ⟨⟨lead, w, trail⟩, rfl, rfl⟩
    obtain ⟨c, others, hskip, heq, -, -⟩ := w.exists_skipGap lead trail.text
    have htake := @Written.takeValue_append w (2 * (lead.text ++ w.text ++ trail.text).length + 2)
      trail.text (by simp; omega) trail.stops
    rw [read?, WrittenText.text, hskip, heq, htake]
    exact if_pos trail.skipGap_text

end ImportAtlas.Json
