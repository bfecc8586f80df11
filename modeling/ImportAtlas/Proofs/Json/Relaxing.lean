import ImportAtlas.Proofs.Json.Fields
import ImportAtlas.Proofs.Json.Written

/-!
# Strict texts read as relaxed ones

A strict text has no comment outside its strings, and no comma before a closing bracket. Cutting out
comments leaves it as it is, strings that look like comments included. Commas, however, are dropped
within strings as well: a strict text is always accepted, and read as if each of its strings were
written without the commas that only blanks part from a closing bracket.
-/

namespace ImportAtlas.Json

/-- A text holds a comma that only blanks part from a closing bracket. -/
def HoldsTrailingComma (s : List Char) : Prop :=
  ∃ front blanks bracket rest, s = front ++ ',' :: (blanks ++ bracket :: rest) ∧
    (∀ c ∈ blanks, Text.isBlank c) ∧ (bracket = ']' ∨ bracket = '\x7d')

variable {s rest body text : List Char} {c : Char}

section Commas

/-- A text goes on with a closing bracket behind blanks. -/
theorem closesNext_iff : closesNext s ↔ ∃ blanks bracket rest, s = blanks ++ bracket :: rest ∧
    (∀ c ∈ blanks, Text.isBlank c) ∧ (bracket = ']' ∨ bracket = '\x7d') := by
  rw [closesNext, Text.stripLeft]
  constructor
  · intro h
    split at h
    · next c rest heq =>
      have hsplit : s.takeWhile Text.isBlank ++ c :: rest = s := by
        rw [← heq, List.takeWhile_append_dropWhile]
      exact ⟨_, c, rest, hsplit.symm, List.all_eq_true.mp List.all_takeWhile, by simpa using h⟩
    · cases h
  · rintro ⟨blanks, bracket, rest, rfl, hblanks, hbracket⟩
    have hstop : Text.isBlank bracket = false := by rcases hbracket with rfl | rfl <;> decide
    rw [Text.dropWhile_run hblanks (Text.stops_cons.mpr hstop)]
    simpa using hbracket

/-- What goes on with another character does not go on with a closing bracket. -/
theorem closesNext_cons (hblank : Text.isBlank c = false) (hbracket : c ≠ ']')
    (hbrace : c ≠ '\x7d') : closesNext (c :: rest) = false := by
  simp [closesNext, Text.stripLeft, hblank, hbracket, hbrace]

/-- Before a quote it is the string alone that decides. -/
theorem closesNext_append_quote (body rest : List Char) :
    closesNext (body ++ '\x22' :: rest) = closesNext body := by
  induction body with
  | nil => exact closesNext_cons (by decide) (by decide) (by decide)
  | cons c body ih =>
    by_cases hblank : Text.isBlank c
    · have hskip (s : List Char) : closesNext (c :: s) = closesNext s := by
        simp [closesNext, Text.stripLeft, hblank]
      rw [List.cons_append, hskip, hskip, ih]
    · simp [closesNext, Text.stripLeft, hblank]

/-- What is no comma stays. -/
theorem dropTrailingCommas_append (h : ',' ∉ s) (rest : List Char) :
    dropTrailingCommas (s ++ rest) = s ++ dropTrailingCommas rest := by
  induction s with
  | nil => rfl
  | cons c s ih =>
    rw [List.mem_cons, not_or] at h
    rw [List.cons_append, dropTrailingCommas, if_neg (by simp [Ne.symm h.1]), ih h.2, List.cons_append]

/-- A comma stays where no closing bracket follows. -/
theorem dropTrailingCommas_comma (h : closesNext rest = false) :
    dropTrailingCommas (',' :: rest) = ',' :: dropTrailingCommas rest := by
  simp [dropTrailingCommas, h]

/-- Commas are dropped in a string as if nothing followed it. -/
theorem dropTrailingCommas_append_quote (body rest : List Char) :
    dropTrailingCommas (body ++ '\x22' :: rest) =
      dropTrailingCommas body ++ '\x22' :: dropTrailingCommas rest := by
  induction body with
  | nil => exact dropTrailingCommas_append (s := ['\x22']) (by decide) rest
  | cons c body ih =>
    rw [List.cons_append, dropTrailingCommas, dropTrailingCommas, closesNext_append_quote, ih]
    split <;> rfl

/-- Dropping commas takes characters away and changes nothing else. -/
theorem dropTrailingCommas_sublist (s : List Char) : (dropTrailingCommas s).Sublist s := by
  induction s with
  | nil => exact .slnil
  | cons c s ih =>
    rw [dropTrailingCommas]
    split
    · exact ih.cons c
    · exact ih.cons_cons c

/-- A text stays as it is exactly if it holds no comma before a closing bracket. -/
theorem dropTrailingCommas_eq_self_iff : dropTrailingCommas s = s ↔ ¬ HoldsTrailingComma s := by
  induction s with
  | nil =>
    refine iff_of_true rfl ?_
    rintro ⟨front, blanks, bracket, rest, h, -⟩
    simp at h
  | cons c s ih =>
    rw [dropTrailingCommas]
    split
    · next hdrop =>
      simp only [Bool.and_eq_true, decide_eq_true_eq] at hdrop
      obtain ⟨rfl, hcloses⟩ := hdrop
      obtain ⟨blanks, bracket, rest, rfl, hblanks, hbracket⟩ := closesNext_iff.mp hcloses
      refine iff_of_false (fun heq => ?_) fun hno => hno ⟨[], blanks, bracket, rest, rfl, hblanks, hbracket⟩
      have hle := (dropTrailingCommas_sublist (blanks ++ bracket :: rest)).length_le
      rw [heq, List.length_cons] at hle
      omega
    · next hkeep =>
      rw [List.cons.injEq, ih]
      refine ⟨fun h => ?_, fun h => ⟨rfl, ?_⟩⟩
      · rintro ⟨front, blanks, bracket, rest, heq, hblanks, hbracket⟩
        cases front with
        | nil =>
          obtain ⟨rfl, rfl⟩ := List.cons.inj heq
          have hcloses := closesNext_iff.mpr ⟨blanks, bracket, rest, rfl, hblanks, hbracket⟩
          exact hkeep (by simp [hcloses])
        | cons d front =>
          obtain ⟨rfl, rfl⟩ := List.cons.inj heq
          exact h.2 ⟨front, blanks, bracket, rest, rfl, hblanks, hbracket⟩
      · rintro ⟨front, blanks, bracket, rest, rfl, hblanks, hbracket⟩
        exact h ⟨c :: front, blanks, bracket, rest, rfl, hblanks, hbracket⟩

end Commas

section Strings

/-- The first character that is kept is the first of all, unless it is a blank or a closing bracket. -/
theorem eq_cons_of_dropTrailingCommas (hblank : Text.isBlank c = false) (hbracket : c ≠ ']')
    (hbrace : c ≠ '\x7d') (h : dropTrailingCommas s = c :: rest) :
    ∃ following, s = c :: following ∧ dropTrailingCommas following = rest := by
  cases s with
  | nil => cases h
  | cons d s =>
    rw [dropTrailingCommas] at h
    split at h
    · next hdrop =>
      -- Behind a comma that is dropped stands a blank or a bracket, which stays.
      simp only [Bool.and_eq_true, decide_eq_true_eq] at hdrop
      obtain ⟨blanks, bracket, following, rfl, hblanks, hclosing⟩ := closesNext_iff.mp hdrop.2
      cases blanks with
      | nil =>
        have hcomma : ',' ∉ [bracket] := by rcases hclosing with rfl | rfl <;> decide
        have hkept := (dropTrailingCommas_append hcomma following).symm.trans h
        obtain rfl : bracket = c := (List.cons.inj hkept).1
        exact hclosing.elim (absurd · hbracket) (absurd · hbrace)
      | cons b blanks =>
        have hb := hblanks b List.mem_cons_self
        have hcomma : ',' ∉ [b] := by
          rw [List.mem_singleton]
          rintro rfl
          exact absurd hb (by decide)
        have hkept := (dropTrailingCommas_append hcomma (blanks ++ bracket :: following)).symm.trans h
        obtain rfl : b = c := (List.cons.inj hkept).1
        simp [hb] at hblank
    · obtain ⟨rfl, rfl⟩ := List.cons.inj h
      exact ⟨s, rfl, rfl⟩

/-- An escape that stays alone does so when commas are dropped. -/
theorem StaysAlone.dropped (h : StaysAlone body) : StaysAlone (dropTrailingCommas body) := by
  intro following heq
  obtain ⟨rest, rfl, hrest⟩ :=
    eq_cons_of_dropTrailingCommas (by decide) (by decide) (by decide) heq
  obtain ⟨rest, rfl, rfl⟩ :=
    eq_cons_of_dropTrailingCommas (by decide) (by decide) (by decide) hrest
  obtain ⟨digits, n, others, rfl, hunit, hlow⟩ := h _ rfl
  exact ⟨digits, n, _, dropTrailingCommas_append (hunit.notMem (by decide)) others, hunit, hlow⟩

/-- An escape stands where it stood when commas are dropped behind it. -/
theorem Escapes.dropped {e : List Char} (h : Escapes body e c) :
    Escapes (dropTrailingCommas body) e c := by
  cases h with
  | short h => exact .short h
  | unit h halone => exact .unit h fun hhigh => (halone hhigh).dropped
  | pair h h' hhigh hlow => exact .pair h h' hhigh hlow

/-- A string is still spelled without its commas before closing brackets, and the text it spells is as
much shorter as the string itself. -/
theorem Spells.exists_dropped (h : Spells body text) :
    ∃ text', Spells (dropTrailingCommas body) text' ∧
      text'.length + body.length = text.length + (dropTrailingCommas body).length := by
  induction h with
  | nil => exact ⟨[], .nil, rfl⟩
  | plain hquote hslash hcontrol _ ih =>
    obtain ⟨text', h, hlength⟩ := ih
    rw [dropTrailingCommas]
    split
    · exact ⟨text', h, by simp; omega⟩
    · exact ⟨_, .plain hquote hslash hcontrol h, by simp; omega⟩
  | @escaped e c body text hescape _ ih =>
    obtain ⟨text', h, hlength⟩ := ih
    have hcomma : ',' ∉ '\\' :: e := by simp [comma_notMem_escape hescape]
    rw [dropTrailingCommas_append hcomma]
    exact ⟨_, .escaped hescape.dropped h, by simp; omega⟩

/-- A string without its commas before closing brackets. -/
def Quotation.dropped (q : Quotation) : Quotation where
  body := dropTrailingCommas q.body
  spelled := q.spelled.elim fun _ h => h.exists_dropped.imp fun _ h' => h'.1

/-- A string without such commas is the same string only if it holds none. -/
theorem Quotation.text_dropped_eq (q : Quotation) (h : q.dropped.value = q.value) :
    q.dropped.text = q.text := by
  obtain ⟨text, htext⟩ := q.spelled
  obtain ⟨text', htext', hlength⟩ := htext.exists_dropped
  have hsame : text' = text := by
    rw [value_eq htext, value_eq (q := q.dropped) htext'] at h
    exact String.ofList_injective h
  rw [hsame] at hlength
  have hbody : q.dropped.body = q.body :=
    (dropTrailingCommas_sublist q.body).eq_of_length (by omega)
  rw [Quotation.text, Quotation.text, hbody]

end Strings

mutual

/-- A value with each of its strings rewritten. -/
def Written.mapStrings (f : Quotation → Quotation) : Written → Written
  | .scalar scalar => .scalar scalar
  | .quotation quotation => .quotation (f quotation)
  | .emptyArray gap => .emptyArray gap
  | .array items => .array (items.mapStrings f)
  | .emptyObject gap => .emptyObject gap
  | .object fields => .object (fields.mapStrings f)

/-- Items with each of their strings rewritten. -/
def WrittenItems.mapStrings (f : Quotation → Quotation) : WrittenItems → WrittenItems
  | .last lead item trail => .last lead (item.mapStrings f) trail
  | .more lead item trail others => .more lead (item.mapStrings f) trail (others.mapStrings f)

/-- Fields with each of their strings rewritten, keys included. -/
def WrittenFields.mapStrings (f : Quotation → Quotation) : WrittenFields → WrittenFields
  | .last key value trail => .last { key with name := f key.name } (value.mapStrings f) trail
  | .more key value trail others =>
    .more { key with name := f key.name } (value.mapStrings f) trail (others.mapStrings f)

end

/-- A way to rewrite texts changes nothing but strings: what is no quote, no slash and no comma stays,
and so does a comma before which nothing is closed. -/
structure RewritesStrings (rewrite : List Char → List Char) (f : Quotation → Quotation) : Prop where
  append : ∀ s rest, (∀ c ∈ s, c ≠ '\x22' ∧ c ≠ '/' ∧ c ≠ ',') →
    rewrite (s ++ rest) = s ++ rewrite rest
  quotation : ∀ (q : Quotation) rest, rewrite (q.text ++ rest) = (f q).text ++ rewrite rest
  comma : ∀ rest, closesNext rest = false → rewrite (',' :: rest) = ',' :: rewrite rest

/-- Cutting out comments changes no string. -/
theorem rewritesStrings_strip : RewritesStrings (stripFrom .plain) id where
  append s rest hs := by
    induction s with
    | nil => rfl
    | cons c s ih =>
      obtain ⟨⟨hquote, hslash, -⟩, hs⟩ := List.forall_mem_cons.mp hs
      have hsingle : (Lexeme.single c).Fits (s ++ rest) := ⟨hquote, fun h => absurd h hslash⟩
      have hstrip := Lexeme.stripFrom_text hsingle
      rw [ih hs] at hstrip
      exact hstrip
  quotation q rest := by
    obtain ⟨text, h⟩ := q.spelled
    exact @Lexeme.stripFrom_text (.string q.body) _ h.isBody
  comma rest _ :=
    @Lexeme.stripFrom_text (.single ',') _ ⟨by decide, fun h => absurd h (by decide)⟩

/-- Dropping commas drops them in each string. -/
theorem rewritesStrings_drop : RewritesStrings dropTrailingCommas Quotation.dropped where
  append s rest hs := dropTrailingCommas_append (fun hmem => (hs ',' hmem).2.2 rfl) rest
  quotation q rest := by
    have hquote := dropTrailingCommas_append (s := ['\x22']) (by decide) (q.body ++ '\x22' :: rest)
    rw [dropTrailingCommas_append_quote] at hquote
    simpa [Quotation.text, Quotation.dropped] using hquote
  comma rest h := dropTrailingCommas_comma h

section Rewriting

variable {rewrite : List Char → List Char} {f : Quotation → Quotation}

/-- A mark that is no quote, no slash and no comma stays. -/
theorem RewritesStrings.mark (h : RewritesStrings rewrite f)
    (hc : c ≠ '\x22' ∧ c ≠ '/' ∧ c ≠ ',') (rest : List Char) :
    rewrite (c :: rest) = c :: rewrite rest :=
  h.append [c] rest (by simpa using hc)

/-- Blanks stay. -/
theorem RewritesStrings.gap (h : RewritesStrings rewrite f) (gap : Gap) (rest : List Char) :
    rewrite (gap.text ++ rest) = gap.text ++ rewrite rest := by
  refine h.append _ _ fun c hc => ?_
  have hgap := gap.isGap_of_mem c hc
  refine ⟨?_, ?_, ?_⟩ <;> (rintro rfl; exact absurd hgap (by decide))

/-- Literals and numbers stay. -/
theorem RewritesStrings.scalar (h : RewritesStrings rewrite f) (scalar : Scalar) (rest : List Char) :
    rewrite (scalar.text ++ rest) = scalar.text ++ rewrite rest := by
  refine h.append _ _ fun c hc => ?_
  have hscalar := scalar.inScalar_of_mem c hc
  refine ⟨?_, ?_, ?_⟩ <;> (rintro rfl; exact absurd hscalar (by decide))

/-- A key has its name rewritten. -/
theorem RewritesStrings.key (h : RewritesStrings rewrite f) (key : WrittenKey) (rest : List Char) :
    rewrite (key.text ++ rest) = { key with name := f key.name }.text ++ rewrite rest := by
  have hcolon := h.mark (c := ':') (by decide) (key.afterColon.text ++ rest)
  simp only [WrittenKey.text, List.append_assoc, List.cons_append]
  rw [h.gap, h.quotation, h.gap, hcolon, h.gap]

/-- Blanks do not matter for what comes next. -/
theorem closesNext_gap (gap : Gap) (s : List Char) : closesNext (gap.text ++ s) = closesNext s := by
  rw [closesNext, closesNext, Text.stripLeft, Text.stripLeft, List.dropWhile_append_of_pos]
  exact fun c hc => isBlank_of_isGap (gap.isGap_of_mem c hc)

/-- Items begin with a value, which closes nothing. -/
theorem WrittenItems.closesNext_eq_false (items : WrittenItems) (rest : List Char) :
    closesNext (items.text ++ rest) = false := by
  cases items with
  | last lead item trail =>
    obtain ⟨c, others, htext, hblank, hbracket, hbrace⟩ := item.exists_cons
    rw [WrittenItems.text, List.append_assoc, List.append_assoc, closesNext_gap, htext]
    exact closesNext_cons hblank hbracket hbrace
  | more lead item trail items =>
    obtain ⟨c, others, htext, hblank, hbracket, hbrace⟩ := item.exists_cons
    rw [WrittenItems.text, List.append_assoc, List.append_assoc, List.append_assoc, closesNext_gap,
      htext]
    exact closesNext_cons hblank hbracket hbrace

/-- Fields begin with a key, which closes nothing. -/
theorem WrittenFields.closesNext_eq_false (fields : WrittenFields) (rest : List Char) :
    closesNext (fields.text ++ rest) = false := by
  have hkey (key : WrittenKey) (following : List Char) : closesNext (key.text ++ following) = false := by
    rw [WrittenKey.text, List.append_assoc, List.append_assoc, List.append_assoc, closesNext_gap]
    exact closesNext_cons (by decide) (by decide) (by decide)
  cases fields with
  | last key value trail =>
    rw [WrittenFields.text, List.append_assoc, List.append_assoc]
    exact hkey key _
  | more key value trail fields =>
    rw [WrittenFields.text, List.append_assoc, List.append_assoc, List.append_assoc]
    exact hkey key _

mutual

/-- Rewriting the text of a value rewrites its strings. -/
theorem Written.rewrite_text (h : RewritesStrings rewrite f) : ∀ (w : Written) (rest : List Char),
    rewrite (w.text ++ rest) = (w.mapStrings f).text ++ rewrite rest
  | .scalar scalar, rest => h.scalar scalar rest
  | .quotation quotation, rest => h.quotation quotation rest
  | .emptyArray gap, rest => by
    simp only [Written.text, Written.mapStrings, List.append_assoc, List.cons_append, List.nil_append]
    rw [h.mark (by decide), h.gap, h.mark (by decide)]
  | .array items, rest => by
    simp only [Written.text, Written.mapStrings, List.append_assoc, List.cons_append, List.nil_append]
    rw [h.mark (by decide), items.rewrite_text h, h.mark (by decide)]
  | .emptyObject gap, rest => by
    simp only [Written.text, Written.mapStrings, List.append_assoc, List.cons_append, List.nil_append]
    rw [h.mark (by decide), h.gap, h.mark (by decide)]
  | .object fields, rest => by
    simp only [Written.text, Written.mapStrings, List.append_assoc, List.cons_append, List.nil_append]
    rw [h.mark (by decide), fields.rewrite_text h, h.mark (by decide)]

/-- Rewriting the text of items rewrites their strings. -/
theorem WrittenItems.rewrite_text (h : RewritesStrings rewrite f) :
    ∀ (items : WrittenItems) (rest : List Char),
      rewrite (items.text ++ rest) = (items.mapStrings f).text ++ rewrite rest
  | .last lead item trail, rest => by
    simp only [WrittenItems.text, WrittenItems.mapStrings, List.append_assoc]
    rw [h.gap, item.rewrite_text h, h.gap]
  | .more lead item trail others, rest => by
    simp only [WrittenItems.text, WrittenItems.mapStrings, List.append_assoc, List.cons_append]
    rw [h.gap, item.rewrite_text h, h.gap, h.comma _ (others.closesNext_eq_false rest),
      others.rewrite_text h]

/-- Rewriting the text of fields rewrites their strings. -/
theorem WrittenFields.rewrite_text (h : RewritesStrings rewrite f) :
    ∀ (fields : WrittenFields) (rest : List Char),
      rewrite (fields.text ++ rest) = (fields.mapStrings f).text ++ rewrite rest
  | .last key value trail, rest => by
    simp only [WrittenFields.text, WrittenFields.mapStrings, List.append_assoc]
    rw [h.key, value.rewrite_text h, h.gap]
  | .more key value trail others, rest => by
    simp only [WrittenFields.text, WrittenFields.mapStrings, List.append_assoc, List.cons_append]
    rw [h.key, value.rewrite_text h, h.gap, h.comma _ (others.closesNext_eq_false rest),
      others.rewrite_text h]

end

end Rewriting

mutual

/-- A value whose strings are left alone. -/
theorem Written.mapStrings_id : ∀ w : Written, w.mapStrings id = w
  | .scalar _ => rfl
  | .quotation _ => rfl
  | .emptyArray _ => rfl
  | .array items => by rw [Written.mapStrings, items.mapStrings_id]
  | .emptyObject _ => rfl
  | .object fields => by rw [Written.mapStrings, fields.mapStrings_id]

/-- Items whose strings are left alone. -/
theorem WrittenItems.mapStrings_id : ∀ items : WrittenItems, items.mapStrings id = items
  | .last _ item _ => by rw [WrittenItems.mapStrings, item.mapStrings_id]
  | .more _ item _ others => by
    rw [WrittenItems.mapStrings, item.mapStrings_id, others.mapStrings_id]

/-- Fields whose strings are left alone. -/
theorem WrittenFields.mapStrings_id : ∀ fields : WrittenFields, fields.mapStrings id = fields
  | .last _ value _ => by rw [WrittenFields.mapStrings, value.mapStrings_id]; rfl
  | .more _ value _ others => by
    rw [WrittenFields.mapStrings, value.mapStrings_id, others.mapStrings_id]; rfl

end

mutual

/-- No object in a value is written with a key twice. -/
def Written.RepeatsNoKey : Written → Prop
  | .array items => items.RepeatNoKey
  | .object fields => (fields.fields.map Prod.fst).Nodup ∧ fields.RepeatNoKey
  | _ => True

/-- No object in an item is written with a key twice. -/
def WrittenItems.RepeatNoKey : WrittenItems → Prop
  | .last _ item _ => item.RepeatsNoKey
  | .more _ item _ others => item.RepeatsNoKey ∧ others.RepeatNoKey

/-- No object in the value of a field is written with a key twice. -/
def WrittenFields.RepeatNoKey : WrittenFields → Prop
  | .last _ value _ => value.RepeatsNoKey
  | .more _ value _ others => value.RepeatsNoKey ∧ others.RepeatNoKey

end

/-- There are as many fields as before. -/
theorem WrittenFields.length_fields_mapStrings (f : Quotation → Quotation) :
    ∀ fields : WrittenFields, (fields.mapStrings f).fields.length = fields.fields.length
  | .last _ _ _ => rfl
  | .more _ _ _ others => congrArg (· + 1) (others.length_fields_mapStrings f)

mutual

/-- Where no key is repeated, dropping commas keeps the value only if it drops none. -/
theorem Written.text_dropped_eq : ∀ w : Written, w.RepeatsNoKey →
    (w.mapStrings .dropped).value = w.value → (w.mapStrings .dropped).text = w.text
  | .scalar _, _, _ => rfl
  | .quotation q, _, h => q.text_dropped_eq (Json.str.inj h)
  | .emptyArray _, _, _ => rfl
  | .array items, hkeys, h => by
    rw [Written.mapStrings, Written.text, Written.text, items.text_dropped_eq hkeys (Json.arr.inj h)]
  | .emptyObject _, _, _ => rfl
  | .object fields, hkeys, h => by
    have hfields : mergeFields (fields.mapStrings .dropped).fields = fields.fields :=
      (Json.obj.inj h).trans (mergeFields_eq_self hkeys.1)
    -- Had two keys become one, there would be fewer fields.
    have hmerged := mergeFields_eq_self_of_length
      (hfields ▸ (fields.length_fields_mapStrings Quotation.dropped).symm)
    rw [Written.mapStrings, Written.text, Written.text,
      fields.text_dropped_eq hkeys.2 (hmerged.symm.trans hfields)]

/-- Where no key is repeated, dropping commas keeps the items only if it drops none. -/
theorem WrittenItems.text_dropped_eq : ∀ items : WrittenItems, items.RepeatNoKey →
    (items.mapStrings .dropped).values = items.values → (items.mapStrings .dropped).text = items.text
  | .last _ item _, hkeys, h => by
    rw [WrittenItems.mapStrings, WrittenItems.text, WrittenItems.text,
      item.text_dropped_eq hkeys (List.cons.inj h).1]
  | .more _ item _ others, hkeys, h => by
    rw [WrittenItems.mapStrings, WrittenItems.text, WrittenItems.text,
      item.text_dropped_eq hkeys.1 (List.cons.inj h).1, others.text_dropped_eq hkeys.2 (List.cons.inj h).2]

/-- Where no key is repeated, dropping commas keeps the fields only if it drops none. -/
theorem WrittenFields.text_dropped_eq : ∀ fields : WrittenFields, fields.RepeatNoKey →
    (fields.mapStrings .dropped).fields = fields.fields →
      (fields.mapStrings .dropped).text = fields.text
  | .last key value _, hkeys, h => by
    obtain ⟨hname, hvalue⟩ := Prod.mk.inj (List.cons.inj h).1
    rw [WrittenFields.mapStrings, WrittenFields.text, WrittenFields.text, WrittenKey.text,
      WrittenKey.text, key.name.text_dropped_eq hname, value.text_dropped_eq hkeys hvalue]
  | .more key value _ others, hkeys, h => by
    obtain ⟨hname, hvalue⟩ := Prod.mk.inj (List.cons.inj h).1
    rw [WrittenFields.mapStrings, WrittenFields.text, WrittenFields.text, WrittenKey.text,
      WrittenKey.text, key.name.text_dropped_eq hname, value.text_dropped_eq hkeys.1 hvalue,
      others.text_dropped_eq hkeys.2 (List.cons.inj h).2]

end

/-- A whole text with each of its strings without its commas before closing brackets. -/
def WrittenText.dropped (t : WrittenText) : WrittenText :=
  { t with value := t.value.mapStrings .dropped }

/-- What is left of a strict text when comments are cut out and commas dropped. -/
theorem dropTrailingCommas_stripComments (t : WrittenText) :
    stripComments t.text = t.text ∧ dropTrailingCommas t.text = t.dropped.text := by
  have hstrip := rewritesStrings_strip
  have hdrop := rewritesStrings_drop
  have hstripNil : stripFrom .plain t.trail.text = t.trail.text := by
    simpa [stripFrom] using hstrip.gap t.trail []
  have hdropNil : dropTrailingCommas t.trail.text = t.trail.text := by
    simpa [dropTrailingCommas] using hdrop.gap t.trail []
  constructor
  · rw [stripComments, WrittenText.text, List.append_assoc, hstrip.gap,
      t.value.rewrite_text hstrip, t.value.mapStrings_id, hstripNil]
  · rw [WrittenText.text, List.append_assoc, hdrop.gap, t.value.rewrite_text hdrop, hdropNil,
      ← List.append_assoc]
    rfl

/-- A text that strict JSON accepts is accepted as a relaxed one as well, and read as what it says with
each of its strings without the commas that only blanks part from a closing bracket. The value is the
same wherever the text holds no such comma and, if no object in it is written with a key twice, only
there. -/
theorem readRelaxed?_of_read? {v : Json} (h : read? s = some v) :
    ∃ t : WrittenText, s = t.text ∧ t.value.value = v ∧
      readRelaxed? s = some t.dropped.value.value ∧
      (¬ HoldsTrailingComma s → readRelaxed? s = some v) ∧
      (t.value.RepeatsNoKey → readRelaxed? s = some v → ¬ HoldsTrailingComma s) := by
  obtain ⟨t, rfl, rfl⟩ := read?_eq_some_iff.mp h
  obtain ⟨hstrip, hdrop⟩ := dropTrailingCommas_stripComments t
  have hrelaxed : readRelaxed? t.text = some t.dropped.value.value := by
    rw [readRelaxed?, hstrip, hdrop]
    exact read?_eq_some_iff.mpr ⟨t.dropped, rfl, rfl⟩
  refine ⟨t, rfl, rfl, hrelaxed, fun hnone => ?_, fun hkeys hsame => ?_⟩
  · rw [readRelaxed?, hstrip, dropTrailingCommas_eq_self_iff.mpr hnone]
    exact h
  · rw [← dropTrailingCommas_eq_self_iff, hdrop, WrittenText.text, WrittenText.text]
    have hvalue : t.dropped.value.value = t.value.value := Option.some.inj (hrelaxed.symm.trans hsame)
    rw [show t.dropped.value.text = t.value.text from t.value.text_dropped_eq hkeys hvalue]
    rfl

/-- Strings that look like comments, and a bracket that is written as an escape behind a comma, are read
as strict JSON reads them. -/
theorem readRelaxed?_of_read?_escaped :
    let s := "[\"//,\\u005d\", [\"/*, \", 7] ]".toList
    (read? s).isSome ∧ ¬ HoldsTrailingComma s ∧ readRelaxed? s = read? s := by
  intro s
  have hread : (read? s).isSome := by decide +kernel
  have hnone : ¬ HoldsTrailingComma s := dropTrailingCommas_eq_self_iff.mp (by decide +kernel)
  obtain ⟨v, hv⟩ := Option.isSome_iff_exists.mp hread
  obtain ⟨t, -, -, -, hsame, -⟩ := readRelaxed?_of_read? hv
  exact ⟨hread, hnone, (hsame hnone).trans hv.symm⟩

/-- Not all strict texts keep their value: a string that holds a comma before a closing bracket loses
the comma. -/
theorem not_forall_readRelaxed?_of_read? :
    ¬ ∀ s v, read? s = some v → readRelaxed? s = some v := by
  intro hclaim
  have hread : (read? "\"a,]\"".toList).bind Json.str? = some "a,]" := by decide +kernel
  have hlost : (readRelaxed? "\"a,]\"".toList).bind Json.str? = some "a]" := by decide +kernel
  obtain ⟨v, hv, -⟩ := Option.bind_eq_some_iff.mp hread
  rw [hclaim _ _ hv, ← hv, hread] at hlost
  exact absurd hlost (by decide)

end ImportAtlas.Json
