import Mathlib.Data.Nat.Notation
import ImportAtlas.Json.Reader
import ImportAtlas.Proofs.Json.Lexemes

/-!
# Strings as JSON writes them

What stands between the quotes of a string spells a text: an escape stands for one character, and any
other character but a quote, a backslash and the control characters for itself. The reader takes
exactly what is spelled. An escape for the first half of a pair stands alone only where no second half
follows, so that what an escape means may depend on what stands behind it.
-/

namespace ImportAtlas.Json

/-- Four hexadecimal digits that write a number. -/
structure IsCodeUnit (digits : List Char) (n : ℕ) : Prop where
  length_eq : digits.length = 4
  isSome_of_mem : ∀ c ∈ digits, (hexValue c).isSome
  takeUnit_append : ∀ rest, takeUnit (digits ++ rest) = some (n, rest)

/-- What follows does not go on with the second half of a pair, whatever escape it goes on with. -/
def StaysAlone (rest : List Char) : Prop :=
  ∀ following, rest = '\\' :: 'u' :: following →
    ∃ digits n others, following = digits ++ others ∧ IsCodeUnit digits n ∧ ¬ isLowUnit n

/-- The escapes of one character, with what they stand for. -/
def shortEscapes : List (Char × Char) :=
  [('\x22', '\x22'), ('\\', '\\'), ('/', '/'), ('b', '\x08'), ('f', '\x0c'), ('n', '\n'),
    ('r', '\r'), ('t', '\t')]

/-- What stands behind a backslash, the character it stands for, and what may follow. -/
inductive Escapes (rest : List Char) : List Char → Char → Prop
  | short {mark c : Char} (h : (mark, c) ∈ shortEscapes) : Escapes rest [mark] c
  | unit {digits : List Char} {n : ℕ} (h : IsCodeUnit digits n)
      (halone : isHighUnit n → StaysAlone rest) : Escapes rest ('u' :: digits) (unitChar n)
  | pair {digits digits' : List Char} {high low : ℕ} (h : IsCodeUnit digits high)
      (h' : IsCodeUnit digits' low) (hhigh : isHighUnit high) (hlow : isLowUnit low) :
      Escapes rest ('u' :: digits ++ '\\' :: 'u' :: digits') (pairChar high low)

/-- What stands between quotes, and the text it spells. -/
inductive Spells : List Char → List Char → Prop
  | nil : Spells [] []
  | plain {c : Char} {body text : List Char} (hquote : c ≠ '\x22') (hslash : c ≠ '\\')
      (hcontrol : ¬ c.toNat < 32) (h : Spells body text) : Spells (c :: body) (c :: text)
  | escaped {e : List Char} {c : Char} {body text : List Char} (hescape : Escapes body e c)
      (h : Spells body text) : Spells ('\\' :: e ++ body) (c :: text)

variable {s rest e body text digits : List Char} {c : Char} {n fuel : ℕ}

/-- A number is written with four digits. -/
theorem exists_isCodeUnit (h : takeUnit s = some (n, rest)) :
    ∃ digits, s = digits ++ rest ∧ IsCodeUnit digits n := by
  unfold takeUnit at h
  split at h
  · next a b c d following =>
    simp only [bind, Option.bind_eq_some_iff, Option.some.injEq, Prod.mk.injEq] at h
    obtain ⟨a', ha, b', hb, c', hc, d', hd, rfl, rfl⟩ := h
    refine ⟨[a, b, c, d], rfl, rfl, ?_, fun rest => ?_⟩
    · simp [ha, hb, hc, hd]
    · simp [takeUnit, ha, hb, hc, hd]
  · cases h

/-- A character that is no hexadecimal digit is none of the digits. -/
theorem IsCodeUnit.notMem (h : IsCodeUnit digits n) (hc : hexValue c = none) : c ∉ digits := fun hmem => by
  simpa [hc] using h.isSome_of_mem c hmem

/-- Before the closing quote an escape stays alone if it does without it. -/
theorem StaysAlone.append_quote (h : StaysAlone body) : StaysAlone (body ++ '\x22' :: rest) := by
  intro following heq
  cases body with
  | nil => exact absurd (List.cons.inj heq).1 (by decide)
  | cons c body =>
    obtain ⟨rfl, htail⟩ := List.cons.inj heq
    cases body with
    | nil => exact absurd (List.cons.inj htail).1 (by decide)
    | cons d body =>
      obtain ⟨rfl, rfl⟩ := List.cons.inj htail
      obtain ⟨digits, n, others, rfl, hunit, hlow⟩ := h _ rfl
      exact ⟨digits, n, others ++ '\x22' :: rest, by simp, hunit, hlow⟩

/-- Without the closing quote an escape stays alone if it does before it. -/
theorem StaysAlone.of_append_quote (h : StaysAlone (body ++ '\x22' :: rest)) : StaysAlone body := by
  rintro following rfl
  obtain ⟨digits, n, others, heq, hunit, hlow⟩ := h (following ++ '\x22' :: rest) rfl
  rcases List.append_eq_append_iff.mp heq with ⟨front, rfl, htail⟩ | ⟨front, rfl, -⟩
  · cases front with
    | nil => exact ⟨following, n, [], by simp, by rwa [List.append_nil] at hunit, hlow⟩
    | cons d front =>
      obtain rfl : '\x22' = d := (List.cons.inj htail).1
      exact absurd (List.mem_append_right _ List.mem_cons_self) (hunit.notMem (by decide))
  · exact ⟨digits, n, front, rfl, hunit, hlow⟩

/-- An escape stands before the closing quote as it stands in the string. -/
theorem escapes_append_quote_iff :
    Escapes (body ++ '\x22' :: rest) e c ↔ Escapes body e c := by
  constructor
  · rintro (h | ⟨h, halone⟩ | ⟨h, h', hhigh, hlow⟩)
    · exact .short h
    · exact .unit h fun hhigh => (halone hhigh).of_append_quote
    · exact .pair h h' hhigh hlow
  · rintro (h | ⟨h, halone⟩ | ⟨h, h', hhigh, hlow⟩)
    · exact .short h
    · exact .unit h fun hhigh => (halone hhigh).append_quote
    · exact .pair h h' hhigh hlow

/-- The reader takes an escape. -/
theorem takeEscape_append (h : Escapes rest e c) : takeEscape (e ++ rest) = some (c, rest) := by
  cases h with
  | short h =>
    simp only [shortEscapes, List.mem_cons, Prod.mk.injEq, List.not_mem_nil, or_false] at h
    rcases h with ⟨rfl, rfl⟩ | ⟨rfl, rfl⟩ | ⟨rfl, rfl⟩ | ⟨rfl, rfl⟩ | ⟨rfl, rfl⟩ | ⟨rfl, rfl⟩ |
      ⟨rfl, rfl⟩ | ⟨rfl, rfl⟩ <;> rfl
  | @unit digits n h halone =>
    rw [List.cons_append, takeEscape, h.takeUnit_append]
    dsimp only
    split
    · next following hhigh =>
      obtain ⟨digits', m, others, rfl, hunit, hlow⟩ := halone hhigh following rfl
      rw [hunit.takeUnit_append]
      simp [hlow]
    · rfl
  | @pair digits digits' high low h h' hhigh hlow =>
    rw [List.append_assoc, List.cons_append, takeEscape, h.takeUnit_append]
    simp [hhigh, h'.takeUnit_append, hlow]

/-- What the reader takes is an escape. -/
theorem exists_escapes (h : takeEscape s = some (c, rest)) :
    ∃ e, s = e ++ rest ∧ Escapes rest e c := by
  unfold takeEscape at h
  split at h
  · split at h
    · cases h
    · next high afterHigh htake =>
      obtain ⟨digits, rfl, hunit⟩ := exists_isCodeUnit htake
      split at h
      · next second hhigh =>
        split at h
        · cases h
        · next low others htake' =>
          obtain ⟨digits', rfl, hunit'⟩ := exists_isCodeUnit htake'
          split at h
          · next hlow =>
            obtain ⟨rfl, rfl⟩ := Prod.mk.inj (Option.some.inj h)
            exact ⟨'u' :: digits ++ '\\' :: 'u' :: digits', by simp, .pair hunit hunit' hhigh hlow⟩
          · next hlow =>
            cases h
            refine ⟨'u' :: digits, rfl, .unit hunit fun _ following hfollowing => ?_⟩
            cases hfollowing
            exact ⟨digits', low, others, rfl, hunit', hlow⟩
      · next hlone =>
        cases h
        exact ⟨'u' :: digits, rfl, .unit hunit fun hhigh following hfollowing =>
          absurd hfollowing (hlone following hhigh)⟩
  all_goals
    cases h
    try exact ⟨[_], rfl, .short (by decide)⟩

/-- No comma stands in an escape. -/
theorem comma_notMem_escape (h : Escapes rest e c) : ',' ∉ e := by
  cases h with
  | short h =>
    have hmarks : ∀ entry ∈ shortEscapes, ',' ∉ [entry.1] := by decide
    exact hmarks _ h
  | unit h _ => simp [h.notMem (c := ',') (by decide)]
  | pair h h' _ _ => simp [h.notMem (c := ',') (by decide), h'.notMem (c := ',') (by decide)]

/-- Digits stand in a string. -/
theorem IsCodeUnit.isBody_append (h : IsCodeUnit digits n) (hbody : IsBody body) :
    IsBody (digits ++ body) := by
  have hmem : ∀ c ∈ digits, c ≠ '\x22' ∧ c ≠ '\\' := fun c hc =>
    ⟨ne_of_mem_of_not_mem hc (h.notMem (by decide)), ne_of_mem_of_not_mem hc (h.notMem (by decide))⟩
  clear h
  induction digits with
  | nil => exact hbody
  | cons c digits ih =>
    obtain ⟨hc, hdigits⟩ := List.forall_mem_cons.mp hmem
    exact .plain hc.1 hc.2 (ih hdigits)

/-- What spells a text stands in a string. -/
theorem Spells.isBody (h : Spells body text) : IsBody body := by
  induction h with
  | nil => exact .nil
  | plain hquote hslash _ _ ih => exact .plain hquote hslash ih
  | escaped hescape _ ih =>
    cases hescape with
    | short _ => exact .escaped ih
    | unit h _ => exact .escaped (h.isBody_append ih)
    | pair h h' _ _ =>
      simpa using IsBody.escaped (h.isBody_append (.escaped (h'.isBody_append ih)))

/-- The reader takes a spelled text up to its closing quote. -/
theorem takeString_append (h : Spells body text) (hfuel : body.length < fuel) (rest : List Char) :
    takeString fuel (body ++ '\x22' :: rest) = some (text, rest) := by
  induction h generalizing fuel with
  | nil =>
    obtain ⟨fuel, rfl⟩ : ∃ n, fuel = n + 1 := ⟨fuel - 1, by omega⟩
    rfl
  | plain hquote hslash hcontrol _ ih =>
    obtain ⟨fuel, rfl⟩ : ∃ n, fuel = n + 1 := ⟨fuel - 1, by omega⟩
    rw [List.cons_append, takeString, if_neg hquote, if_neg hslash, if_neg hcontrol,
      ih (by simpa using hfuel)]
    rfl
  | @escaped e c body text hescape _ ih =>
    obtain ⟨fuel, rfl⟩ : ∃ n, fuel = n + 1 := ⟨fuel - 1, by omega⟩
    have htake := takeEscape_append ((@escapes_append_quote_iff rest _ _ _).mpr hescape)
    rw [List.append_assoc, List.cons_append, takeString, if_neg (by decide), if_pos rfl, htake]
    dsimp only
    rw [ih (by simp at hfuel; omega)]
    rfl

/-- What the reader takes up to a closing quote spells a text. -/
theorem exists_spells (h : takeString fuel s = some (text, rest)) :
    ∃ body, s = body ++ '\x22' :: rest ∧ Spells body text := by
  induction fuel generalizing s text with
  | zero => cases h
  | succ fuel ih =>
    cases s with
    | nil => cases h
    | cons c s =>
      rw [takeString] at h
      split at h
      · next hquote =>
        cases h
        exact ⟨[], by rw [hquote]; rfl, .nil⟩
      next hquote =>
      split at h
      · next hslash =>
        split at h
        · cases h
        next e' following htake =>
        obtain ⟨⟨text', rest'⟩, hrest, heq⟩ := Option.map_eq_some_iff.mp h
        cases heq
        obtain ⟨body, rfl, hbody⟩ := ih hrest
        obtain ⟨e, rfl, hescape⟩ := exists_escapes htake
        refine ⟨'\\' :: e ++ body, by rw [hslash]; simp, .escaped ?_ hbody⟩
        exact escapes_append_quote_iff.mp hescape
      next hslash =>
      split at h
      · cases h
      next hcontrol =>
      obtain ⟨⟨text', rest'⟩, hrest, heq⟩ := Option.map_eq_some_iff.mp h
      cases heq
      obtain ⟨body, rfl, hbody⟩ := ih hrest
      exact ⟨c :: body, rfl, .plain hquote hslash hcontrol hbody⟩

/-- A string between its quotes, by what is written there. -/
structure Quotation where
  body : List Char
  spelled : ∃ text, Spells body text

namespace Quotation

/-- The string that a quotation stands for. -/
def value (q : Quotation) : String :=
  ((takeText (q.body ++ ['\x22'])).map Prod.fst).getD ""

/-- A quotation stands for the text that is spelled in it. -/
theorem value_eq {q : Quotation} {text : List Char} (h : Spells q.body text) :
    q.value = String.ofList text := by
  rw [value, takeText, takeString_append h (by rw [List.length_append]; omega)]
  rfl

/-- The reader takes a quotation. -/
theorem takeText_append (q : Quotation) (rest : List Char) :
    takeText (q.body ++ '\x22' :: rest) = some (q.value, rest) := by
  obtain ⟨text, h⟩ := q.spelled
  rw [takeText, takeString_append h (by rw [List.length_append]; omega), value_eq h]
  rfl

/-- What the reader takes is a quotation. -/
theorem exists_of_takeText {value : String} (h : takeText s = some (value, rest)) :
    ∃ q : Quotation, s = q.body ++ '\x22' :: rest ∧ q.value = value := by
  obtain ⟨⟨text, rest'⟩, htake, heq⟩ := Option.map_eq_some_iff.mp h
  cases heq
  obtain ⟨body, rfl, hbody⟩ := exists_spells htake
  exact ⟨⟨body, text, hbody⟩, rfl, value_eq hbody⟩

end Quotation

end ImportAtlas.Json
