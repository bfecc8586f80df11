import ImportAtlas.Json.Relaxed
import ImportAtlas.Proofs.Text.Runs

/-!
# Lexemes of commented texts

Read from left to right, a text falls into strings, comments and single characters, and it does so
in one way only. Cutting out the comments keeps all other lexemes as they are, and no two of them
come to stand together in such a way that a comment or a string would begin: a slash that begins no
comment is not followed by a comment either.
-/

namespace ImportAtlas.Json

/-- A text that stands in a string: a backslash comes with the character it escapes, and no other
character is a quote. -/
inductive IsBody : List Char → Prop
  | nil : IsBody []
  | plain {c : Char} {body : List Char} (hquote : c ≠ '\x22') (hslash : c ≠ '\\')
      (h : IsBody body) : IsBody (c :: body)
  | escaped {c : Char} {body : List Char} (h : IsBody body) : IsBody ('\\' :: c :: body)

/-- What ends a comment between slash and star. -/
def commentEnd : List Char := ['*', '/']

/-- A piece of a text in which strings and comments are told apart. -/
inductive Lexeme where
  /-- A string, by what stands between its quotes. -/
  | string (body : List Char)
  /-- A string without its closing quote. -/
  | openString (body : List Char)
  /-- A comment to the end of the line, by what stands behind the slashes. -/
  | lineComment (body : List Char)
  /-- A comment between slash and star. -/
  | blockComment (body : List Char)
  /-- A comment between slash and star without its end. -/
  | openComment (body : List Char)
  /-- Any other character. -/
  | single (c : Char)
deriving DecidableEq, Repr

namespace Lexeme

/-- The text of a lexeme. -/
def text : Lexeme → List Char
  | string body => '\x22' :: body ++ ['\x22']
  | openString body => '\x22' :: body
  | lineComment body => '/' :: '/' :: body
  | blockComment body => '/' :: '*' :: body ++ commentEnd
  | openComment body => '/' :: '*' :: body
  | single c => [c]

/-- Whether a lexeme is a comment. -/
def isComment : Lexeme → Bool
  | lineComment _ | blockComment _ | openComment _ => true
  | _ => false

/-- Whether a lexeme is one where the given text comes behind it. A comment between slash and star
ends at the first star and slash behind its opening; what is left open goes to the end. -/
def Fits (rest : List Char) : Lexeme → Prop
  | string body => IsBody body
  | openString body => (IsBody body ∨ ∃ front, IsBody front ∧ body = front ++ ['\\']) ∧ rest = []
  | lineComment body => '\n' ∉ body ∧ ∀ c ∈ rest.head?, c = '\n'
  | blockComment body => ¬ commentEnd <:+: body ++ ['*']
  | openComment body => ¬ commentEnd <:+: body ∧ rest = []
  | single c => c ≠ '\x22' ∧ (c = '/' → ∀ d ∈ rest.head?, d ≠ '/' ∧ d ≠ '*')

/-- The text of lexemes one after the other. -/
def textOf (lexemes : List Lexeme) : List Char := lexemes.flatMap text

@[simp]
theorem textOf_nil : textOf [] = [] := rfl

@[simp]
theorem textOf_cons (lexeme : Lexeme) (lexemes : List Lexeme) :
    textOf (lexeme :: lexemes) = lexeme.text ++ textOf lexemes := List.flatMap_cons

/-- Whether lexemes are what their text falls into. -/
def IsReading : List Lexeme → Prop
  | [] => True
  | lexeme :: lexemes => lexeme.Fits (textOf lexemes) ∧ IsReading lexemes

/-- The lexemes that are no comments. -/
def kept (lexemes : List Lexeme) : List Lexeme := lexemes.filter (!·.isComment)

theorem kept_cons (lexeme : Lexeme) (lexemes : List Lexeme) :
    kept (lexeme :: lexemes) =
      if lexeme.isComment then kept lexemes else lexeme :: kept lexemes := by
  cases h : lexeme.isComment <;> simp [kept, h]

end Lexeme

section Strip

variable {body rest : List Char}

/-- What stands in a string stays. -/
theorem stripFrom_body (h : IsBody body) (rest : List Char) :
    stripFrom .string (body ++ rest) = body ++ stripFrom .string rest := by
  induction h with
  | nil => rfl
  | plain hquote hslash _ ih =>
    rw [List.cons_append, stripFrom, if_neg hquote, ih, List.cons_append]
    exact fun _ _ hc => absurd hc hslash
  | escaped _ ih => rw [List.cons_append, List.cons_append, stripFrom, ih]; rfl

/-- A line comment goes up to the newline. -/
theorem stripFrom_line (h : '\n' ∉ body) (hrest : ∀ c ∈ rest.head?, c = '\n') :
    stripFrom .line (body ++ rest) = stripFrom .plain rest := by
  induction body with
  | nil =>
    cases rest with
    | nil => rfl
    | cons c rest =>
      obtain rfl : c = '\n' := hrest c rfl
      rfl
  | cons c body ih =>
    rw [List.mem_cons, not_or] at h
    rw [List.cons_append, stripFrom, if_neg (Ne.symm h.1), ih h.2]

/-- A comment goes up to its first end. -/
theorem stripFrom_block (h : ¬ commentEnd <:+: body ++ ['*']) :
    stripFrom .block (body ++ commentEnd ++ rest) = stripFrom .plain rest := by
  induction body with
  | nil => rfl
  | cons c body ih =>
    rw [List.cons_append, List.infix_cons_iff, not_or] at h
    rw [List.cons_append, List.cons_append, stripFrom, ih h.2]
    rintro following rfl hbody
    refine h.1 ?_
    cases body with
    | nil => cases hbody
    | cons d body =>
      obtain rfl : d = '/' := (List.cons.inj hbody).1
      exact ⟨body ++ ['*'], rfl⟩

/-- A comment without an end goes to the end of the text. -/
theorem stripFrom_openBlock (h : ¬ commentEnd <:+: body) : stripFrom .block body = [] := by
  induction body with
  | nil => rfl
  | cons c body ih =>
    rw [List.infix_cons_iff, not_or] at h
    rw [stripFrom, ih h.2]
    rintro following rfl rfl
    exact h.1 ⟨following, rfl⟩

end Strip

namespace Lexeme

variable {lexeme other : Lexeme} {lexemes others : List Lexeme} {s rest rest' : List Char}

/-- Cutting out comments takes a lexeme away if it is one, and else keeps it. -/
theorem stripFrom_text (h : lexeme.Fits rest) :
    stripFrom .plain (lexeme.text ++ rest) =
      (if lexeme.isComment then [] else lexeme.text) ++ stripFrom .plain rest := by
  cases lexeme with
  | string body =>
    have hbody := stripFrom_body h ('\x22' :: rest)
    simp [text, isComment, stripFrom, hbody]
  | openString body =>
    obtain ⟨hbody, rfl⟩ := h
    have hkept : stripFrom .string body = body := by
      rcases hbody with hbody | ⟨front, hfront, rfl⟩
      · simpa [stripFrom] using stripFrom_body hbody []
      · simpa [stripFrom] using stripFrom_body hfront ['\\']
    simp [text, isComment, stripFrom, hkept]
  | lineComment body => exact stripFrom_line h.1 h.2
  | blockComment body => exact stripFrom_block h
  | openComment body =>
    obtain ⟨hbody, rfl⟩ := h
    rw [List.append_nil]
    exact stripFrom_openBlock hbody
  | single c =>
    have hslash : ∀ d following, c = '/' → rest = d :: following → d ≠ '/' ∧ d ≠ '*' := by
      rintro d following hc rfl
      exact h.2 hc d rfl
    rw [text, List.singleton_append, stripFrom, if_neg h.1]
    · rfl
    · exact fun following hc hrest => (hslash _ _ hc hrest).1 rfl
    · exact fun following hc hrest => (hslash _ _ hc hrest).2 rfl

/-- A lexeme has at least one character. -/
theorem text_ne_nil (lexeme : Lexeme) : lexeme.text ≠ [] := by
  cases lexeme <;> simp [text]

/-- A text begins as its first lexeme does. -/
theorem head?_text_append (lexeme : Lexeme) (rest : List Char) :
    (lexeme.text ++ rest).head? = lexeme.text.head? := by
  cases lexeme <;> rfl

/-- Lexemes of an empty text are none. -/
theorem eq_nil_of_textOf (h : textOf lexemes = []) : lexemes = [] := by
  cases lexemes with
  | nil => rfl
  | cons lexeme lexemes =>
    rw [textOf_cons] at h
    exact absurd (List.append_eq_nil_iff.mp h).1 lexeme.text_ne_nil

/-- A text in a string goes up to a quote that is not escaped, or else to the end. -/
theorem exists_body : ∀ s : List Char,
    (∃ body rest, s = body ++ '\x22' :: rest ∧ IsBody body) ∨
      (IsBody s ∨ ∃ front, IsBody front ∧ s = front ++ ['\\'])
  | [] => .inr (.inl .nil)
  | c :: s => by
    by_cases hquote : c = '\x22'
    · exact .inl ⟨[], s, by rw [hquote]; rfl, .nil⟩
    by_cases hslash : c = '\\'
    · subst hslash
      cases s with
      | nil => exact .inr (.inr ⟨[], .nil, rfl⟩)
      | cons d s =>
        rcases exists_body s with ⟨body, rest, rfl, hbody⟩ | hbody | ⟨front, hfront, rfl⟩
        · exact .inl ⟨'\\' :: d :: body, rest, rfl, .escaped hbody⟩
        · exact .inr (.inl (.escaped hbody))
        · exact .inr (.inr ⟨'\\' :: d :: front, .escaped hfront, rfl⟩)
    · rcases exists_body s with ⟨body, rest, rfl, hbody⟩ | hbody | ⟨front, hfront, rfl⟩
      · exact .inl ⟨c :: body, rest, rfl, .plain hquote hslash hbody⟩
      · exact .inr (.inl (.plain hquote hslash hbody))
      · exact .inr (.inr ⟨c :: front, .plain hquote hslash hfront, rfl⟩)

/-- A text in a comment goes up to the first end of it, if there is one. -/
theorem exists_commentEnd (s : List Char) :
    (∃ body rest, s = body ++ commentEnd ++ rest ∧ ¬ commentEnd <:+: body ++ ['*']) ∨
      ¬ commentEnd <:+: s := by
  induction s with
  | nil => exact .inr (by decide)
  | cons c s ih =>
    by_cases hend : commentEnd <+: c :: s
    · obtain ⟨rest, hrest⟩ := hend
      exact .inl ⟨[], rest, hrest.symm, by decide⟩
    rcases ih with ⟨body, rest, rfl, hbody⟩ | hs
    · refine .inl ⟨c :: body, rest, rfl, ?_⟩
      rw [List.cons_append, List.infix_cons_iff, not_or]
      refine ⟨fun hstart => hend ?_, hbody⟩
      have hfront : c :: (body ++ ['*']) <+: c :: (body ++ commentEnd ++ rest) :=
        ⟨'/' :: rest, by simp [commentEnd]⟩
      exact hstart.trans hfront
    · exact .inr (by rw [List.infix_cons_iff, not_or]; exact ⟨hend, hs⟩)

/-- A text that is not empty begins with a lexeme. -/
theorem exists_first {s : List Char} (h : s ≠ []) :
    ∃ (lexeme : Lexeme) (rest : List Char), s = lexeme.text ++ rest ∧ lexeme.Fits rest := by
  obtain ⟨c, s, rfl⟩ := List.exists_cons_of_ne_nil h
  by_cases hquote : c = '\x22'
  · subst hquote
    rcases exists_body s with ⟨body, rest, rfl, hbody⟩ | hbody
    · exact ⟨.string body, rest, by simp [text], hbody⟩
    · exact ⟨.openString s, [], by simp [text], hbody, rfl⟩
  by_cases hline : c = '/' ∧ s.head? = some '/'
  · obtain ⟨rfl, hhead⟩ := hline
    obtain ⟨s, rfl⟩ := List.head?_eq_some_iff.mp hhead
    refine ⟨.lineComment (s.takeWhile (· != '\n')), s.dropWhile (· != '\n'), ?_, ?_, ?_⟩
    · simp [text]
    · intro hmem
      simpa using List.all_eq_true.mp List.all_takeWhile _ hmem
    · intro d hd
      have hstop := List.head?_dropWhile_not (· != '\n') s
      rw [hd] at hstop
      simpa using hstop
  by_cases hblock : c = '/' ∧ s.head? = some '*'
  · obtain ⟨rfl, hhead⟩ := hblock
    obtain ⟨s, rfl⟩ := List.head?_eq_some_iff.mp hhead
    rcases exists_commentEnd s with ⟨body, rest, rfl, hbody⟩ | hs
    · exact ⟨.blockComment body, rest, by simp [text], hbody⟩
    · exact ⟨.openComment s, [], by simp [text], hs, rfl⟩
  · refine ⟨.single c, s, rfl, hquote, ?_⟩
    rintro rfl d hd
    exact ⟨fun heq => hline ⟨rfl, heq ▸ hd⟩, fun heq => hblock ⟨rfl, heq ▸ hd⟩⟩

/-- Every text falls into lexemes. -/
theorem exists_reading (s : List Char) : ∃ lexemes, IsReading lexemes ∧ textOf lexemes = s := by
  induction hn : s.length using Nat.strongRecOn generalizing s with
  | _ n ih =>
    by_cases hs : s = []
    · exact ⟨[], trivial, hs.symm⟩
    obtain ⟨lexeme, rest, rfl, hfits⟩ := exists_first hs
    have hshorter : rest.length < n := by
      have hpos := List.length_pos_iff.mpr lexeme.text_ne_nil
      rw [List.length_append] at hn
      omega
    obtain ⟨lexemes, hreading, rfl⟩ := ih _ hshorter rest rfl
    exact ⟨lexeme :: lexemes, ⟨hfits, hreading⟩, textOf_cons ..⟩

/-- A string ends in one way only. -/
theorem body_unique {body body' : List Char} (hbody : IsBody body) (hbody' : IsBody body')
    (h : body ++ '\x22' :: rest = body' ++ '\x22' :: rest') : body = body' ∧ rest = rest' := by
  induction hbody generalizing body' with
  | nil =>
    cases hbody' with
    | nil => exact ⟨rfl, (List.cons.inj h).2⟩
    | plain hquote _ _ => exact absurd (List.cons.inj h).1.symm hquote
    | escaped _ => exact absurd (List.cons.inj h).1 (by decide)
  | plain hquote hslash _ ih =>
    cases hbody' with
    | nil => exact absurd (List.cons.inj h).1 hquote
    | plain _ _ hbody' =>
      obtain ⟨rfl, htail⟩ := List.cons.inj h
      obtain ⟨rfl, hrest⟩ := ih hbody' htail
      exact ⟨rfl, hrest⟩
    | escaped _ => exact absurd (List.cons.inj h).1 hslash
  | escaped _ ih =>
    cases hbody' with
    | nil => exact absurd (List.cons.inj h).1 (by decide)
    | plain _ hslash _ => exact absurd (List.cons.inj h).1.symm hslash
    | escaped hbody' =>
      obtain ⟨rfl, htail⟩ := List.cons.inj (List.cons.inj h).2
      obtain ⟨rfl, hrest⟩ := ih hbody' htail
      exact ⟨rfl, hrest⟩

/-- A string that ends goes nowhere on to the end of the text. -/
theorem ne_openBody {body front tail : List Char} (hbody : IsBody body) (hfront : IsBody front)
    (htail : tail = [] ∨ tail = ['\\']) : body ++ '\x22' :: rest ≠ front ++ tail := by
  intro h
  induction hbody generalizing front with
  | nil =>
    cases hfront with
    | nil => rcases htail with rfl | rfl <;> simp at h
    | plain hquote _ _ => exact hquote (List.cons.inj h).1.symm
    | escaped _ => exact absurd (List.cons.inj h).1 (by decide)
  | plain _ hslash _ ih =>
    cases hfront with
    | nil =>
      rcases htail with rfl | rfl
      · cases h
      · exact hslash (List.cons.inj h).1
    | plain _ _ hfront => exact ih hfront (List.cons.inj h).2
    | escaped _ => exact hslash (List.cons.inj h).1
  | escaped _ ih =>
    cases hfront with
    | nil => rcases htail with rfl | rfl <;> simp at h
    | plain _ hslash _ => exact hslash (List.cons.inj h).1.symm
    | escaped hfront => exact ih hfront (List.cons.inj (List.cons.inj h).2).2

/-- No end of a comment comes before its first one. -/
theorem length_le_of_commentEnd {body body' : List Char} (hbody' : ¬ commentEnd <:+: body' ++ ['*'])
    (h : body ++ commentEnd ++ rest = body' ++ commentEnd ++ rest') : body'.length ≤ body.length := by
  refine Nat.le_of_not_lt fun hlt => hbody' ?_
  have hfirst : body ++ commentEnd <+: body ++ commentEnd ++ rest := List.prefix_append _ _
  have hsecond : body' ++ ['*'] <+: body ++ commentEnd ++ rest := by
    rw [h]
    exact ⟨'/' :: rest', by simp [commentEnd]⟩
  have hprefix : body ++ commentEnd <+: body' ++ ['*'] :=
    List.prefix_of_prefix_length_le hfirst hsecond (by simp [commentEnd]; omega)
  exact (List.suffix_append body commentEnd).isInfix.trans hprefix.isInfix

/-- A comment ends in one way only. -/
theorem commentEnd_unique {body body' : List Char} (hbody : ¬ commentEnd <:+: body ++ ['*'])
    (hbody' : ¬ commentEnd <:+: body' ++ ['*'])
    (h : body ++ commentEnd ++ rest = body' ++ commentEnd ++ rest') : body = body' ∧ rest = rest' := by
  have hlength : body.length = body'.length :=
    Nat.le_antisymm (length_le_of_commentEnd hbody h.symm) (length_le_of_commentEnd hbody' h)
  rw [List.append_assoc, List.append_assoc] at h
  obtain ⟨rfl, htail⟩ := List.append_inj h hlength
  exact ⟨rfl, List.append_cancel_left htail⟩

/-- What begins with a quote begins with a string. -/
theorem first_of_quote (h : other.Fits rest) (heq : '\x22' :: s = other.text ++ rest) :
    (∃ body, other = .string body ∧ s = body ++ '\x22' :: rest) ∨
      (other = .openString s ∧ rest = []) := by
  cases other with
  | string body => exact .inl ⟨body, rfl, by simpa [text] using heq⟩
  | openString body =>
    obtain ⟨-, rfl⟩ := h
    exact .inr ⟨by simpa [text] using heq.symm, rfl⟩
  | single c => exact absurd (List.cons.inj heq).1.symm h.1
  | lineComment body => exact absurd (List.cons.inj heq).1 (by decide)
  | blockComment body => exact absurd (List.cons.inj heq).1 (by decide)
  | openComment body => exact absurd (List.cons.inj heq).1 (by decide)

/-- What begins with two slashes begins with a line comment. -/
theorem first_of_slashes (h : other.Fits rest) (heq : '/' :: '/' :: s = other.text ++ rest) :
    ∃ body, other = .lineComment body ∧ s = body ++ rest := by
  cases other with
  | lineComment body => exact ⟨body, rfl, by simpa [text] using heq⟩
  | single c =>
    obtain ⟨rfl, rfl⟩ := List.cons.inj heq
    exact absurd rfl (h.2 rfl '/' rfl).1
  | string body => exact absurd (List.cons.inj heq).1 (by decide)
  | openString body => exact absurd (List.cons.inj heq).1 (by decide)
  | blockComment body => exact absurd (List.cons.inj (List.cons.inj heq).2).1 (by decide)
  | openComment body => exact absurd (List.cons.inj (List.cons.inj heq).2).1 (by decide)

/-- What begins with a slash and a star begins with a comment. -/
theorem first_of_slash_star (h : other.Fits rest) (heq : '/' :: '*' :: s = other.text ++ rest) :
    (∃ body, other = .blockComment body ∧ s = body ++ commentEnd ++ rest) ∨
      (other = .openComment s ∧ rest = []) := by
  cases other with
  | blockComment body => exact .inl ⟨body, rfl, by simpa [text] using heq⟩
  | openComment body =>
    obtain ⟨-, rfl⟩ := h
    exact .inr ⟨by simpa [text] using heq.symm, rfl⟩
  | single c =>
    obtain ⟨rfl, rfl⟩ := List.cons.inj heq
    exact absurd rfl (h.2 rfl '*' rfl).2
  | string body => exact absurd (List.cons.inj heq).1 (by decide)
  | openString body => exact absurd (List.cons.inj heq).1 (by decide)
  | lineComment body => exact absurd (List.cons.inj (List.cons.inj heq).2).1 (by decide)

/-- What begins with any other character begins with this character alone. -/
theorem first_of_single {c : Char} (hc : (single c).Fits s) (heq : c :: s = other.text ++ rest) :
    other = .single c ∧ s = rest := by
  have hslash {d : Char} (hd : d = '/' ∨ d = '*') (hbegin : c = '/') : s.head? ≠ some d := fun hhead =>
    hd.elim (hc.2 hbegin d hhead).1 (hc.2 hbegin d hhead).2
  cases other with
  | single d =>
    obtain ⟨rfl, rfl⟩ := List.cons.inj heq
    exact ⟨rfl, rfl⟩
  | string body => exact absurd (List.cons.inj heq).1 hc.1
  | openString body => exact absurd (List.cons.inj heq).1 hc.1
  | lineComment body =>
    obtain ⟨hbegin, rfl⟩ := List.cons.inj heq
    exact absurd rfl (hslash (.inl rfl) hbegin)
  | blockComment body =>
    obtain ⟨hbegin, rfl⟩ := List.cons.inj heq
    exact absurd rfl (hslash (.inr rfl) hbegin)
  | openComment body =>
    obtain ⟨hbegin, rfl⟩ := List.cons.inj heq
    exact absurd rfl (hslash (.inr rfl) hbegin)

/-- A text begins with one lexeme only. -/
theorem first_unique (h : lexeme.Fits rest) (h' : other.Fits rest')
    (heq : lexeme.text ++ rest = other.text ++ rest') : lexeme = other ∧ rest = rest' := by
  cases lexeme with
  | string body =>
    have hstart : '\x22' :: (body ++ '\x22' :: rest) = other.text ++ rest' := by
      simpa [text] using heq
    rcases first_of_quote h' hstart with ⟨body', rfl, htail⟩ | ⟨rfl, rfl⟩
    · obtain ⟨rfl, rfl⟩ := body_unique h h' htail
      exact ⟨rfl, rfl⟩
    · rcases h'.1 with hopen | ⟨front, hfront, htail⟩
      · exact absurd (List.append_nil _).symm (ne_openBody h hopen (.inl rfl))
      · exact absurd htail (ne_openBody h hfront (.inr rfl))
  | openString body =>
    obtain ⟨hopen, rfl⟩ := h
    rw [List.append_nil] at heq
    rcases first_of_quote h' heq with ⟨body', rfl, htail⟩ | ⟨rfl, rfl⟩
    · rcases hopen with hopen | ⟨front, hfront, rfl⟩
      · exact absurd (htail.symm.trans (List.append_nil _).symm) (ne_openBody h' hopen (.inl rfl))
      · exact absurd htail.symm (ne_openBody h' hfront (.inr rfl))
    · exact ⟨rfl, rfl⟩
  | lineComment body =>
    obtain ⟨body', rfl, htail⟩ := first_of_slashes h' heq
    have hline {body : List Char} (hbody : '\n' ∉ body) : ∀ c ∈ body, (c != '\n') = true :=
      fun c hc => by simpa using ne_of_mem_of_not_mem hc hbody
    have hstops {rest : List Char} (hrest : ∀ c ∈ rest.head?, c = '\n') :
        Text.Stops (· != '\n') rest := fun c hc => by simp [hrest c hc]
    obtain ⟨rfl, rfl⟩ := Text.run_unique (hline h.1) (hline h'.1) (hstops h.2) (hstops h'.2) htail
    exact ⟨rfl, rfl⟩
  | blockComment body =>
    rcases first_of_slash_star h' heq with ⟨body', rfl, htail⟩ | ⟨rfl, rfl⟩
    · obtain ⟨rfl, rfl⟩ := commentEnd_unique h h' htail
      exact ⟨rfl, rfl⟩
    · exact absurd ⟨body, rest, rfl⟩ h'.1
  | openComment body =>
    obtain ⟨hopen, rfl⟩ := h
    rw [List.append_nil] at heq
    rcases first_of_slash_star h' heq with ⟨body', rfl, htail⟩ | ⟨rfl, rfl⟩
    · exact absurd ⟨body', rest', htail.symm⟩ hopen
    · exact ⟨rfl, rfl⟩
  | single c =>
    obtain ⟨rfl, rfl⟩ := first_of_single h heq
    exact ⟨rfl, rfl⟩

/-- A text falls into lexemes in one way only. -/
theorem reading_unique (h : IsReading lexemes) (h' : IsReading others)
    (heq : textOf lexemes = textOf others) : lexemes = others := by
  induction lexemes generalizing others with
  | nil => exact (eq_nil_of_textOf heq.symm).symm
  | cons lexeme lexemes ih =>
    cases others with
    | nil => exact eq_nil_of_textOf heq
    | cons other others =>
      rw [textOf_cons, textOf_cons] at heq
      obtain ⟨rfl, hrest⟩ := first_unique h.1 h'.1 heq
      rw [ih h.2 h'.2 hrest]

/-- The lexemes that are no comments are what their text falls into. -/
theorem isReading_kept (h : IsReading lexemes) : IsReading (kept lexemes) := by
  induction lexemes with
  | nil => trivial
  | cons lexeme lexemes ih =>
    rw [kept_cons]
    split
    · exact ih h.2
    next hkept =>
    refine ⟨?_, ih h.2⟩
    cases lexeme with
    | string body => exact h.1
    | openString body =>
      refine ⟨h.1.1, ?_⟩
      rw [eq_nil_of_textOf h.1.2]
      rfl
    | single c =>
      refine ⟨h.1.1, fun hc => ?_⟩
      have hnext := h.1.2 hc
      cases lexemes with
      | nil => exact nofun
      | cons next lexemes =>
        -- What follows a slash is no comment, so it is kept and goes on following the slash.
        have hstay : next.isComment = false := by
          cases next with
          | lineComment body => exact absurd rfl (hnext '/' rfl).1
          | blockComment body => exact absurd rfl (hnext '/' rfl).1
          | openComment body => exact absurd rfl (hnext '/' rfl).1
          | _ => rfl
        rw [kept_cons, if_neg (by simp [hstay]), textOf_cons, head?_text_append]
        rwa [textOf_cons, head?_text_append] at hnext
    | lineComment body => exact absurd rfl hkept
    | blockComment body => exact absurd rfl hkept
    | openComment body => exact absurd rfl hkept

/-- Cutting out comments leaves the text of the other lexemes. -/
theorem stripComments_textOf (h : IsReading lexemes) :
    stripComments (textOf lexemes) = textOf (kept lexemes) := by
  induction lexemes with
  | nil => rfl
  | cons lexeme lexemes ih =>
    have htail : stripFrom .plain (textOf lexemes) = textOf (kept lexemes) := ih h.2
    rw [stripComments, textOf_cons, stripFrom_text h.1, htail, kept_cons]
    split
    · rfl
    · rw [textOf_cons]

end Lexeme

open Lexeme in
/-- Every text falls into lexemes in exactly one way, and without its comments it is the text of the
other lexemes as they stand. These are what the result falls into, so that it holds no comment, and
cutting out comments once more changes nothing. -/
theorem stripComments_lexemes (s : List Char) :
    ∃ lexemes, (IsReading lexemes ∧ textOf lexemes = s) ∧
      (∀ others, IsReading others → textOf others = s → others = lexemes) ∧
      stripComments s = textOf (kept lexemes) ∧
      (∀ others, IsReading others → textOf others = stripComments s →
        others = kept lexemes ∧ ∀ lexeme ∈ others, ¬ lexeme.isComment) ∧
      stripComments (stripComments s) = stripComments s := by
  obtain ⟨lexemes, hreading, rfl⟩ := exists_reading s
  have hstrip : stripComments (textOf lexemes) = textOf (kept lexemes) := stripComments_textOf hreading
  have hkept : IsReading (kept lexemes) := isReading_kept hreading
  have hnone : ∀ lexeme ∈ kept lexemes, ¬ lexeme.isComment := fun lexeme hmem => by
    simpa using (List.mem_filter.mp hmem).2
  have htwice : kept (kept lexemes) = kept lexemes := by
    rw [kept, List.filter_eq_self]
    simpa using hnone
  refine ⟨lexemes, ⟨hreading, rfl⟩, fun others hothers => reading_unique hothers hreading, hstrip, ?_, ?_⟩
  · intro others hothers htext
    obtain rfl : others = kept lexemes := reading_unique hothers hkept (htext.trans hstrip)
    exact ⟨rfl, hnone⟩
  · rw [hstrip, stripComments_textOf hkept, htwice]

end ImportAtlas.Json
