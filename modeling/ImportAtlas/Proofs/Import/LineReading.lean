import ImportAtlas.Proofs.Import.CallMatches
import ImportAtlas.Proofs.Json.Lexemes

/-!
# Reading a line from left to right

A line is read as code, string literals and comments, and the reading ends in exactly one of the
contexts of a line. A place is hidden by the context in which the reading of the line before it ends:
by a comment, or by a literal whose quote is the last character that is no blank. Nothing else on the
line counts but a star at its beginning, and no other line does.
-/

namespace ImportAtlas

open ImportRule

/-- What stands in a string literal: a backslash comes with the character it escapes, and no other
character is the quote. -/
inductive IsLiteralBody (quote : Char) : List Char → Prop
  | nil : IsLiteralBody quote []
  | plain {c : Char} {body : List Char} (hquote : c ≠ quote) (hslash : c ≠ '\\')
      (h : IsLiteralBody quote body) : IsLiteralBody quote (c :: body)
  | escaped {c : Char} {body : List Char} (h : IsLiteralBody quote body) :
      IsLiteralBody quote ('\\' :: c :: body)

/-- How a line is read, and the context that the reading ends in. A slash is code where it begins no
comment; what is left open goes to the end of the line. -/
inductive LineReads : List Char → LineContext → Prop
  | nil : LineReads [] .code
  | code {c : Char} {rest : List Char} {context : LineContext} (hquote : ¬ isQuote c)
      (hslash : c = '/' → ∀ d ∈ rest.head?, d ≠ '/' ∧ d ≠ '*') (h : LineReads rest context) :
      LineReads (c :: rest) context
  | literal {quote : Char} {body rest : List Char} {context : LineContext} (hquote : isQuote quote)
      (hbody : IsLiteralBody quote body) (h : LineReads rest context) :
      LineReads (quote :: (body ++ quote :: rest)) context
  | comment {body rest : List Char} {context : LineContext} (hbody : ¬ ['*', '/'] <:+: body)
      (h : LineReads rest context) : LineReads ('/' :: '*' :: (body ++ '*' :: '/' :: rest)) context
  | openLiteral {quote : Char} {body : List Char} (hquote : isQuote quote)
      (hbody : IsLiteralBody quote body) : LineReads (quote :: body) (.literal quote)
  | openEscape {quote : Char} {body : List Char} (hquote : isQuote quote)
      (hbody : IsLiteralBody quote body) : LineReads (quote :: (body ++ ['\\'])) (.literal quote)
  | lineComment (body : List Char) : LineReads ('/' :: '/' :: body) .lineComment
  | openComment {body : List Char} (hbody : ¬ ['*', '/'] <:+: body) :
      LineReads ('/' :: '*' :: body) .blockComment

variable {quote c : Char} {body rest line earlier : List Char} {context : LineContext}

section Literals

/-- A quote begins no comment and escapes nothing. -/
theorem ne_of_isQuote (h : isQuote quote) : quote ≠ '/' ∧ quote ≠ '\\' := by
  constructor <;> rintro rfl <;> cases h

/-- In a literal, a reader goes on over what stands in it. -/
theorem IsLiteralBody.after_append (h : IsLiteralBody quote body) (rest : List Char) :
    LineContext.after (.literal quote) (body ++ rest) = LineContext.after (.literal quote) rest := by
  induction h with
  | nil => rfl
  | plain hquote hslash _ ih =>
    rw [List.cons_append, LineContext.after, if_neg hquote, ih]
    · exact fun _ _ hc _ => hslash hc
    · exact fun hc _ => hslash hc
  | escaped _ ih => rw [List.cons_append, List.cons_append, LineContext.after, ih]

/-- A reader is in a literal behind what stands in it. -/
theorem IsLiteralBody.after_eq (h : IsLiteralBody quote body) :
    LineContext.after (.literal quote) body = .literal quote := by
  simpa [LineContext.after] using h.after_append []

/-- The quote ends the literal. -/
theorem after_closingQuote (h : isQuote quote) (rest : List Char) :
    LineContext.after (.literal quote) (quote :: rest) = LineContext.after .code rest := by
  rw [LineContext.after, if_pos rfl]
  · exact fun _ _ hslash _ => (ne_of_isQuote h).2 hslash
  · exact fun hslash _ => (ne_of_isQuote h).2 hslash

/-- A quote in code begins a literal. -/
theorem after_openingQuote (h : isQuote quote) (rest : List Char) :
    LineContext.after .code (quote :: rest) = LineContext.after (.literal quote) rest := by
  rw [LineContext.after, if_pos h]
  · exact fun _ hslash _ => (ne_of_isQuote h).1 hslash
  · exact fun _ hslash _ => (ne_of_isQuote h).1 hslash

/-- A text in a literal goes up to a quote that is not escaped, or else to the end. -/
theorem exists_literalBody (quote : Char) : ∀ s : List Char,
    (∃ body rest, s = body ++ quote :: rest ∧ IsLiteralBody quote body) ∨
      IsLiteralBody quote s ∨ ∃ body, s = body ++ ['\\'] ∧ IsLiteralBody quote body
  | [] => .inr (.inl .nil)
  | c :: s => by
    by_cases hquote : c = quote
    · exact .inl ⟨[], s, by rw [hquote]; rfl, .nil⟩
    by_cases hslash : c = '\\'
    · subst hslash
      cases s with
      | nil => exact .inr (.inr ⟨[], rfl, .nil⟩)
      | cons d s =>
        rcases exists_literalBody quote s with ⟨body, rest, rfl, hbody⟩ | hbody | ⟨body, rfl, hbody⟩
        · exact .inl ⟨'\\' :: d :: body, rest, rfl, .escaped hbody⟩
        · exact .inr (.inl (.escaped hbody))
        · exact .inr (.inr ⟨'\\' :: d :: body, rfl, .escaped hbody⟩)
    · rcases exists_literalBody quote s with ⟨body, rest, rfl, hbody⟩ | hbody | ⟨body, rfl, hbody⟩
      · exact .inl ⟨c :: body, rest, rfl, .plain hquote hslash hbody⟩
      · exact .inr (.inl (.plain hquote hslash hbody))
      · exact .inr (.inr ⟨c :: body, rfl, .plain hquote hslash hbody⟩)

end Literals

namespace LineReads

/-- A reading ends where a reader that goes from character to character ends. -/
theorem after_eq (h : LineReads line context) : LineContext.after .code line = context := by
  induction h with
  | nil => rfl
  | code hquote hslash _ ih =>
    rw [LineContext.after, if_neg hquote, ih]
    · exact fun _ hc hrest => (hslash hc '/' (by rw [hrest]; rfl)).1 rfl
    · exact fun _ hc hrest => (hslash hc '*' (by rw [hrest]; rfl)).2 rfl
  | literal hquote hbody _ ih =>
    rw [after_openingQuote hquote, hbody.after_append, after_closingQuote hquote, ih]
  | comment hbody _ ih => rw [LineContext.after, (Clean.after_blockComment hbody).2, ih]
  | openLiteral hquote hbody => rw [after_openingQuote hquote, hbody.after_eq]
  | openEscape hquote hbody => rw [after_openingQuote hquote, hbody.after_append, LineContext.after]
  | lineComment body => rw [LineContext.after]
  | openComment hbody => rw [LineContext.after, (Clean.after_blockComment hbody).1]

/-- A literal that is left open has one of the quotes. -/
theorem isQuote_of_eq_literal (h : LineReads line context) (hcontext : context = .literal quote) :
    isQuote quote := by
  induction h with
  | code _ _ _ ih | literal _ _ _ ih | comment _ _ ih => exact ih hcontext
  | openLiteral hquote _ | openEscape hquote _ =>
    cases hcontext
    exact hquote
  | nil | lineComment _ | openComment _ => cases hcontext

/-- A line that begins with a quote is read, if every shorter line is. -/
theorem exists_of_quote (hquote : isQuote quote)
    (hshorter : ∀ s : List Char, s.length ≤ rest.length → ∃ context, LineReads s context) :
    ∃ context, LineReads (quote :: rest) context := by
  rcases exists_literalBody quote rest with ⟨body, behind, rfl, hbody⟩ | hbody | ⟨body, rfl, hbody⟩
  · obtain ⟨context, hbehind⟩ := hshorter behind (by simp; omega)
    exact ⟨context, .literal hquote hbody hbehind⟩
  · exact ⟨_, .openLiteral hquote hbody⟩
  · exact ⟨_, .openEscape hquote hbody⟩

/-- A line that begins with a slash and a star is read, if every shorter line is. -/
theorem exists_of_comment
    (hshorter : ∀ s : List Char, s.length ≤ rest.length → ∃ context, LineReads s context) :
    ∃ context, LineReads ('/' :: '*' :: rest) context := by
  rcases Json.Lexeme.exists_commentEnd rest with ⟨body, behind, rfl, hbody⟩ | hopen
  · have hclosed : ¬ ['*', '/'] <:+: body := fun hwithin =>
      hbody (hwithin.trans (List.prefix_append body ['*']).isInfix)
    obtain ⟨context, hbehind⟩ := hshorter behind (by simp; omega)
    exact ⟨context, by simpa [Json.commentEnd] using LineReads.comment hclosed hbehind⟩
  · exact ⟨_, .openComment hopen⟩

/-- Every line is read. -/
theorem exists_context (line : List Char) : ∃ context, LineReads line context := by
  induction hn : line.length using Nat.strongRecOn generalizing line with
  | _ n ih =>
    have hshorter (c : Char) (rest : List Char) (hline : line = c :: rest) (s : List Char)
        (hs : s.length ≤ rest.length) : ∃ context, LineReads s context :=
      ih s.length (by rw [← hn, hline, List.length_cons]; omega) s rfl
    cases line with
    | nil => exact ⟨_, .nil⟩
    | cons c rest =>
      by_cases hquote : isQuote c
      · exact exists_of_quote hquote (hshorter c rest rfl)
      by_cases hline : c = '/' ∧ rest.head? = some '/'
      · obtain ⟨rfl, hhead⟩ := hline
        obtain ⟨body, rfl⟩ := List.head?_eq_some_iff.mp hhead
        exact ⟨_, .lineComment body⟩
      by_cases hblock : c = '/' ∧ rest.head? = some '*'
      · obtain ⟨rfl, hhead⟩ := hblock
        obtain ⟨body, rfl⟩ := List.head?_eq_some_iff.mp hhead
        exact exists_of_comment fun s hs => hshorter '/' ('*' :: body) rfl s (Nat.le_succ_of_le hs)
      · obtain ⟨context, hrest⟩ := hshorter c rest rfl rest (Nat.le_refl _)
        refine ⟨context, .code hquote ?_ hrest⟩
        rintro rfl d hd
        exact ⟨fun heq => hline ⟨rfl, heq ▸ hd⟩, fun heq => hblock ⟨rfl, heq ▸ hd⟩⟩

end LineReads

section Blanks

/-- The first character of a line that is no blank. -/
theorem head?_stripLeft_iff (hc : Text.isBlank c = false) :
    (Text.stripLeft line).head? = some c ↔
      ∃ blanks rest, line = blanks ++ c :: rest ∧ ∀ d ∈ blanks, Text.isBlank d := by
  rw [Text.stripLeft]
  constructor
  · intro h
    obtain ⟨rest, hrest⟩ := List.head?_eq_some_iff.mp h
    refine ⟨line.takeWhile Text.isBlank, rest, ?_, List.all_eq_true.mp List.all_takeWhile⟩
    rw [← hrest, List.takeWhile_append_dropWhile]
  · rintro ⟨blanks, rest, rfl, hblanks⟩
    rw [Text.dropWhile_run hblanks (Text.stops_cons.mpr hc), List.head?_cons]

/-- The last character of a line that is no blank. -/
theorem getLast?_stripRight_iff (hc : Text.isBlank c = false) :
    (Text.stripRight line).getLast? = some c ↔
      ∃ front blanks, line = front ++ c :: blanks ∧ ∀ d ∈ blanks, Text.isBlank d := by
  have hback : (Text.stripRight line).getLast? = (Text.stripLeft line.reverse).head? := by
    rw [Text.stripRight, List.getLast?_reverse, Text.stripLeft]
  rw [hback, head?_stripLeft_iff hc]
  constructor
  · rintro ⟨blanks, rest, hline, hblanks⟩
    refine ⟨rest.reverse, blanks.reverse, ?_, fun d hd => hblanks d (List.mem_reverse.mp hd)⟩
    rw [← List.reverse_reverse line, hline]
    simp
  · rintro ⟨front, blanks, rfl, hblanks⟩
    exact ⟨blanks.reverse, front.reverse, by simp, fun d hd => hblanks d (List.mem_reverse.mp hd)⟩

end Blanks

/-- Where the part of the line before a place begins. -/
theorem exists_lineBefore (text : List Char) (position : ℕ) : ∃ earlier,
    text = earlier ++ lineBefore text position ++ text.drop position ∧
      '\n' ∉ lineBefore text position ∧ earlier.getLast?.all (· == '\n') := by
  let back := (text.take position).reverse
  refine ⟨(back.dropWhile (· != '\n')).reverse, ?_, fun hmem => ?_, getLast?_dropWhile_newline back⟩
  · rw [lineBefore, ← List.reverse_append, List.takeWhile_append_dropWhile, List.reverse_reverse,
      List.take_append_drop]
  · have hall := List.all_eq_true.mp (List.all_takeWhile (p := (· != '\n')) (l := back)) '\n'
    exact absurd (hall (List.mem_reverse.mp hmem)) (by decide)

/-- Of a text that is cut at the beginning of a line, only that line lies before a place on it. -/
theorem lineBefore_lines (hearlier : earlier.getLast?.all (· == '\n')) (hline : '\n' ∉ line)
    (later : List Char) : lineBefore (earlier ++ line ++ later) (earlier ++ line).length = line := by
  have hlast : Clean.lastLine earlier = [] := by
    rcases List.eq_nil_or_concat earlier with rfl | ⟨front, c, rfl⟩
    · rfl
    · rw [List.concat_eq_append] at hearlier ⊢
      obtain rfl : c = '\n' := by simpa using hearlier
      exact Clean.lastLine_newline
  rw [Clean.lineBefore_append, Clean.lastLine_append hline, hlast, List.nil_append]

/-- A text falls into earlier lines, the part of a line before a place, and what comes from the place
on. That part is read in a way that ends in one context. The place is hidden exactly if the part
begins with a star behind blanks, or the reading ends in a comment, or it ends in a literal whose quote
is the last character of the part that is no blank; whatever the earlier lines are, and whatever comes
from the place on. -/
theorem inCommentOrLiteral_reading (text : List Char) (position : ℕ) :
    ∃ earlier line later context, text = earlier ++ line ++ later ∧
      (earlier ++ line).length = min position text.length ∧
      '\n' ∉ line ∧ earlier.getLast?.all (· == '\n') ∧
      LineReads line context ∧ (∀ other, LineReads line other → other = context) ∧
      (inCommentOrLiteral text position ↔
        (∃ blanks rest, line = blanks ++ '*' :: rest ∧ ∀ c ∈ blanks, Text.isBlank c) ∨
        (context = .lineComment ∨ context = .blockComment) ∨
        ∃ quote, context = .literal quote ∧
          ∃ front blanks, line = front ++ quote :: blanks ∧ ∀ c ∈ blanks, Text.isBlank c) ∧
      ∀ earlier' later', earlier'.getLast?.all (· == '\n') →
        inCommentOrLiteral (earlier' ++ line ++ later') (earlier' ++ line).length =
          inCommentOrLiteral text position := by
  obtain ⟨earlier, htext, hline, hearlier⟩ := exists_lineBefore text position
  have hlength : (earlier ++ lineBefore text position).length = min position text.length := by
    have htotal := congrArg List.length htext
    rw [List.length_append, List.length_drop] at htotal
    omega
  obtain ⟨context, hreads⟩ := LineReads.exists_context (lineBefore text position)
  refine ⟨earlier, lineBefore text position, text.drop position, context, htext, hlength, hline,
    hearlier, hreads, fun other hother => hother.after_eq.symm.trans hreads.after_eq, ?_, ?_⟩
  · rw [inCommentOrLiteral, hidesWhatFollows, hreads.after_eq, Bool.or_eq_true, beq_iff_eq,
      head?_stripLeft_iff (by decide)]
    refine or_congr_right ?_
    cases hcontext : context with
    | code => simp
    | lineComment => simp
    | blockComment => simp
    | literal quote =>
      have hblank : Text.isBlank quote = false :=
        isBlank_of_isQuote (hreads.isQuote_of_eq_literal hcontext)
      simp [getLast?_stripRight_iff hblank]
  · intro earlier' later' hearlier'
    rw [inCommentOrLiteral, inCommentOrLiteral, lineBefore_lines hearlier' hline]

/-- The star of an opening does not close the comment with the slash behind it. -/
example : inCommentOrLiteral "'//' /*/ x".toList 9 = true := by decide

end ImportAtlas
