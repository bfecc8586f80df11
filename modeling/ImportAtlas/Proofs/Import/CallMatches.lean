import ImportAtlas.Proofs.Import.Filler
import ImportAtlas.Proofs.Import.Selection

/-!
# Where rules match in a call

In a call with blanks and comments before its argument, no rule for statements matches: at the
start of the text a parenthesis stands behind the word, and a later line begins with a comment or a
quote. A rule for calls matches where the call stands, or within a comment, where the match is
hidden.
-/

namespace ImportAtlas.Clean

open Pattern ImportRule

/-- The functions that load a module. -/
inductive Loader where
  /-- The loader. -/
  | load
  /-- The older loader. -/
  | require

/-- The name of a function that loads a module. -/
def Loader.name : Loader → String
  | .load => "import"
  | .require => "require"

/-- The text of a call behind the blanks and comments in it: its argument and what follows. -/
def argumentText (specifier : Literal) (tail : List Char) : List Char := specifier.text ++ ')' :: tail

/-- A call with blanks and comments before its argument. -/
def callText (loader : Loader) (fillers : List Filler) (specifier : Literal) (tail : List Char) :
    List Char :=
  loader.name.toList ++ '(' :: (fillerText fillers ++ argumentText specifier tail)

/-- A text that opens no call and stays on its line. -/
def StaysQuiet (s : List Char) : Prop := ∀ c ∈ s, c ≠ '(' ∧ c ≠ '\n'

section Argument

variable {specifier : Literal} {tail : List Char}

/-- An argument begins with a quote. -/
theorem beginsWith_argumentText : beginsWith isQuote (argumentText specifier tail) := specifier.isQuote

/-- An argument and what follows open no call and stay on their line. -/
theorem staysQuiet_argumentText (htail : StaysQuiet tail) : StaysQuiet (argumentText specifier tail) := by
  have hinner {c : Char} (hc : c ∈ specifier.text) : c ≠ '(' ∧ c ≠ '\n' :=
    ⟨fun heq => paren_notMem_literal specifier (heq ▸ hc), fun heq =>
      newline_notMem_tailText specifier none (List.mem_append_left _ (heq ▸ hc))⟩
  intro c hc
  rcases List.mem_append.mp hc with hc | hc
  · exact hinner hc
  · rcases List.mem_cons.mp hc with rfl | hc
    · decide
    · exact htail c hc

end Argument

section Lines

variable {f : Filler} {fillers : List Filler} {behind s t : List Char}

/-- Of fillers, only a filler as a whole ends a line. -/
theorem eq_nil_of_getLast?_newline (h : f.text = s ++ t) (hs : s.getLast? = some '\n') : t = [] := by
  have hmem : '\n' ∈ s := List.mem_of_getLast? hs
  cases f with
  | blank c hc =>
    rcases List.singleton_eq_append_iff.mp h with ⟨rfl, -⟩ | ⟨-, rfl⟩
    · cases hs
    · rfl
  | line body unbroken =>
    have hline : '/' :: '/' :: body ++ '\n' :: [] = s ++ t := h
    rcases cons_split hline with ⟨v, -, hv⟩ | ⟨u, hu, -⟩
    · exact (List.append_eq_nil_iff.mp hv.symm).2
    · have hbody : '\n' ∈ '/' :: '/' :: body := hu ▸ List.mem_append_left _ hmem
      exact absurd (by simpa using hbody) unbroken
  | block body unbroken closed =>
    have hbody : '\n' ∈ (Filler.block body unbroken closed).text := h ▸ List.mem_append_left _ hmem
    exact absurd (by simpa [Filler.text] using hbody) unbroken

/-- Behind the end of a line in fillers, fillers go on. -/
theorem exists_fillers_of_newline (hbehind : '\n' ∉ behind) (hs : s.getLast? = some '\n')
    (h : fillerText fillers ++ behind = s ++ t) : ∃ after, t = fillerText after ++ behind := by
  induction fillers generalizing s with
  | nil =>
    have hsplit : behind = s ++ t := h
    exact absurd (hsplit ▸ List.mem_append_left _ (List.mem_of_getLast? hs)) hbehind
  | cons f fillers ih =>
    rw [fillerText_cons, List.append_assoc] at h
    rcases List.append_eq_append_iff.mp h with ⟨w, rfl, hw⟩ | ⟨w, hf, rfl⟩
    · by_cases hne : w = []
      · exact ⟨fillers, by rw [hw, hne, List.nil_append]⟩
      · rw [List.getLast?_append_of_ne_nil _ hne] at hs
        exact ih hs hw
    · exact ⟨fillers, by rw [eq_nil_of_getLast?_newline hf hs, List.nil_append]⟩

/-- Behind blanks, fillers and a quote go on with a slash or with the quote. -/
theorem eq_slash_or_isQuote {indent : List Char} {c : Char} (hbehind : beginsWith isQuote behind)
    (hindent : ∀ d ∈ indent, Text.isBlank d) (hc : Text.isBlank c = false)
    (h : fillerText fillers ++ behind = indent ++ c :: t) : c = '/' ∨ isQuote c := by
  induction fillers generalizing indent with
  | nil =>
    rw [show behind = indent ++ c :: t from h] at hbehind
    cases indent with
    | nil => exact .inr hbehind
    | cons d indent =>
      have hd : Text.isBlank d = false := isBlank_of_isQuote hbehind
      exact absurd (hindent d List.mem_cons_self) (by simp [hd])
  | cons f fillers ih =>
    rw [fillerText_cons, List.append_assoc] at h
    cases f with
    | blank d hd =>
      cases indent with
      | nil =>
        rw [(List.cons.inj h).1, hc] at hd
        cases hd
      | cons e indent => exact ih (List.forall_mem_cons.mp hindent).2 (List.cons.inj h).2
    | line | block =>
      cases indent with
      | nil => exact .inl (List.cons.inj h).1.symm
      | cons e indent =>
        have he := hindent e List.mem_cons_self
        rw [← (List.cons.inj h).1] at he
        cases he

end Lines

section Contexts

variable {fillers : List Filler} {s t body done : List Char}

/-- The last line of a text. -/
def lastLine (s : List Char) : List Char := (s.reverse.takeWhile (· != '\n')).reverse

/-- The part of its line before a place is the last line of the text before the place. -/
theorem lineBefore_append (s t : List Char) : lineBefore (s ++ t) s.length = lastLine s := by
  rw [lineBefore, List.take_left, lastLine]

/-- A line goes on. -/
theorem lastLine_append (ht : '\n' ∉ t) : lastLine (s ++ t) = lastLine s ++ t := by
  have hrun : ∀ c ∈ t.reverse, c != '\n' := fun c hc =>
    bne_iff_ne.mpr fun heq => ht (heq ▸ List.mem_reverse.mp hc)
  rw [lastLine, List.reverse_append, List.takeWhile_append_of_pos hrun, List.reverse_append,
    List.reverse_reverse]
  rfl

/-- A new line begins. -/
theorem lastLine_newline : lastLine (s ++ ['\n']) = [] := by
  rw [lastLine, List.reverse_append]
  rfl

/-- In a comment between slash and star a reader stays up to the first star and slash. -/
theorem after_blockComment (hbody : ¬ ['*', '/'] <:+: body) :
    LineContext.after .blockComment body = .blockComment ∧
      ∀ rest, LineContext.after .blockComment (body ++ '*' :: '/' :: rest) =
        LineContext.after .code rest := by
  induction body with
  | nil => exact ⟨rfl, fun rest => by rw [List.nil_append, LineContext.after]⟩
  | cons c body ih =>
    obtain ⟨hin, hout⟩ := ih fun hwithin => hbody (hwithin.trans (List.suffix_cons c body).isInfix)
    refine ⟨?_, fun rest => ?_⟩
    · rw [LineContext.after, hin]
      rintro v rfl rfl
      exact hbody ⟨[], v, rfl⟩
    · rw [List.cons_append, LineContext.after, hout]
      rintro v rfl hv
      cases body with
      | nil => exact absurd (List.cons.inj hv).1 (by decide)
      | cons d body =>
        obtain ⟨rfl, -⟩ := List.cons.inj hv
        exact hbody ⟨[], body, rfl⟩

/-- A text behind which a reader of its last line is in code. -/
def EndsInCode (s : List Char) : Prop :=
  ∀ t, LineContext.after .code (lastLine s ++ t) = LineContext.after .code t

/-- Where a line ends, code begins. -/
theorem endsInCode_newline (s : List Char) : EndsInCode (s ++ ['\n']) := fun t => by
  rw [lastLine_newline, List.nil_append]

/-- Behind a blank or a comment, code goes on. -/
theorem EndsInCode.append_filler (h : EndsInCode s) (f : Filler) : EndsInCode (s ++ f.text) := by
  intro t
  cases f with
  | blank c hc =>
    by_cases hne : c = '\n'
    · subst hne
      exact endsInCode_newline s t
    · have hplain : ∀ d ∈ [c], d ≠ '/' ∧ isQuote d = false := by
        intro d hd
        rw [List.mem_singleton.mp hd]
        refine ⟨?_, isQuote_of_isBlank_or (.inl hc)⟩
        rintro rfl
        cases hc
      have hline : '\n' ∉ [c] := by simpa using Ne.symm hne
      rw [Filler.text, lastLine_append hline, List.append_assoc, h, after_code_append hplain]
  | line body unbroken =>
    have hsplit : s ++ (Filler.line body unbroken).text = (s ++ '/' :: '/' :: body) ++ ['\n'] := by
      simp [Filler.text]
    rw [hsplit]
    exact endsInCode_newline _ t
  | block body unbroken closed =>
    have hline : '\n' ∉ (Filler.block body unbroken closed).text := by simpa [Filler.text] using unbroken
    have hopen : (Filler.block body unbroken closed).text ++ t = '/' :: '*' :: (body ++ '*' :: '/' :: t) := by
      simp [Filler.text]
    rw [lastLine_append hline, List.append_assoc, h, hopen, LineContext.after,
      (after_blockComment closed).2]

/-- Behind the parenthesis of a call, code goes on. -/
theorem endsInCode_callee (loader : Loader) : EndsInCode (loader.name.toList ++ ['(']) := by
  intro t
  have hline : '\n' ∉ loader.name.toList ++ ['('] := by cases loader <;> decide
  have hplain : ∀ c ∈ loader.name.toList ++ ['('], c ≠ '/' ∧ isQuote c = false := by
    cases loader <;> simp [Loader.name] <;> decide
  rw [← List.nil_append (loader.name.toList ++ ['(']), lastLine_append hline]
  exact after_code_append hplain t

/-- A place behind two slashes on its line is hidden. -/
theorem hidden_lineComment (h : EndsInCode s) (hdone : '\n' ∉ done) (t : List Char) :
    inCommentOrLiteral ((s ++ '/' :: '/' :: done) ++ t) (s ++ '/' :: '/' :: done).length := by
  have hline : '\n' ∉ '/' :: '/' :: done := by simpa using hdone
  rw [inCommentOrLiteral, lineBefore_append, lastLine_append hline, hidesWhatFollows, h,
    LineContext.after, Bool.or_true]

/-- A place in a comment between slash and star is hidden. -/
theorem hidden_blockComment (h : EndsInCode s) (hdone : '\n' ∉ done) (hopen : ¬ ['*', '/'] <:+: done)
    (t : List Char) :
    inCommentOrLiteral ((s ++ '/' :: '*' :: done) ++ t) (s ++ '/' :: '*' :: done).length := by
  have hline : '\n' ∉ '/' :: '*' :: done := by simpa using hdone
  rw [inCommentOrLiteral, lineBefore_append, lastLine_append hline, hidesWhatFollows, h,
    LineContext.after, (after_blockComment hopen).1, Bool.or_true]

/-- A character of a comment that does not close it stands in its body. -/
theorem exists_of_body {close v : List Char} {c : Char} (h : body ++ close = done ++ c :: v)
    (hc : c ∉ close) : ∃ w, body = done ++ c :: w := by
  rcases cons_split h.symm with ⟨w, hw, -⟩ | ⟨u, -, hu⟩
  · exact ⟨w, hw⟩
  · exact absurd (hu ▸ by simp) hc

/-- A name in blanks and comments is hidden. -/
theorem hidden_of_name {u v : List Char} {c : Char} (h : EndsInCode s)
    (htext : fillerText fillers = u ++ c :: v) (hc : inName c) (t : List Char) :
    inCommentOrLiteral ((s ++ u) ++ t) (s ++ u).length := by
  have hother {d : Char} (hd : inName d = false) : c ≠ d := by
    rintro rfl
    rw [hd] at hc
    cases hc
  induction fillers generalizing s u with
  | nil => exact absurd htext (by simp [fillerText])
  | cons f fillers ih =>
    rw [fillerText_cons] at htext
    rcases cons_split htext.symm with ⟨v', hf, -⟩ | ⟨u', rfl, hrest⟩
    · cases f with
      | blank d hd =>
        rcases List.singleton_eq_append_iff.mp hf with ⟨-, hv⟩ | ⟨-, hv⟩
        · rw [← (List.cons.inj hv).1, isBlank_of_inName hc] at hd
          cases hd
        · cases hv
      | line body unbroken =>
        match u with
        | [] => exact absurd (List.cons.inj hf).1.symm (hother rfl)
        | [d] => exact absurd (List.cons.inj (List.cons.inj hf).2).1.symm (hother rfl)
        | d :: e :: done =>
          obtain ⟨rfl, hf'⟩ := List.cons.inj hf
          obtain ⟨rfl, hbody⟩ := List.cons.inj hf'
          obtain ⟨w, rfl⟩ := exists_of_body hbody (by simpa using hother rfl)
          exact hidden_lineComment h (fun hmem => unbroken (List.mem_append_left _ hmem)) t
      | block body unbroken closed =>
        match u with
        | [] => exact absurd (List.cons.inj hf).1.symm (hother rfl)
        | [d] => exact absurd (List.cons.inj (List.cons.inj hf).2).1.symm (hother rfl)
        | d :: e :: done =>
          obtain ⟨rfl, hf'⟩ := List.cons.inj hf
          obtain ⟨rfl, hbody⟩ := List.cons.inj hf'
          have hclose : c ∉ ['*', '/'] := by simpa using ⟨hother rfl, hother rfl⟩
          obtain ⟨w, rfl⟩ := exists_of_body hbody hclose
          refine hidden_blockComment h (fun hmem => unbroken (List.mem_append_left _ hmem)) ?_ t
          exact fun hwithin => closed (hwithin.trans (List.prefix_append _ _).isInfix)
    · have hcode := ih (h.append_filler f) hrest
      rwa [List.append_assoc s] at hcode

end Contexts

section Matches

variable {loader : Loader} {fillers : List Filler} {specifier : Literal} {tail : List Char}
  {rule : ImportRule} {left s right : List Char} {gs : List (List Char)}

/-- A call, cut behind its parenthesis. -/
theorem callText_eq : callText loader fillers specifier tail =
    (loader.name.toList ++ ['(']) ++ (fillerText fillers ++ argumentText specifier tail) := by
  simp [callText]

/-- The name of a function that loads a module begins with no blank. -/
theorem stops_loader (loader : Loader) (rest : List Char) :
    Text.Stops Text.isBlank (loader.name.toList ++ rest) := by
  cases loader <;> exact Text.stops_cons.mpr rfl

/-- Behind a keyword no parenthesis can stand. -/
theorem opens_paren (kind : ImportKind) (rest : List Char) : opens kind ('(' :: rest) = false := by
  cases kind <;> rfl

/-- A call does not begin as a statement does: a parenthesis stands behind its word. -/
theorem not_opens_at_start {kind : ImportKind} {indent gap rest : List Char}
    (hindent : ∀ c ∈ indent, Text.isBlank c) (hgap : ∀ c ∈ gap, Text.isBlank c)
    (hopens : opens kind rest)
    (htext : indent ++ ((ImportRule.keyword kind).toList ++ (gap ++ rest)) =
      callText loader fillers specifier tail) : False := by
  have hfront : indent ++ ((ImportRule.keyword kind).toList ++ (gap ++ rest)) =
      [] ++ (loader.name.toList ++ '(' :: (fillerText fillers ++ argumentText specifier tail)) := by
    simpa [callText] using htext
  obtain ⟨-, hword⟩ :=
    Text.run_unique hindent (by simp) (stops_keyword _ _) (stops_loader loader _) hfront
  rcases keyword_cases kind with heq | heq
  · rw [heq] at hword
    cases loader with
    | load =>
      obtain ⟨-, hparen⟩ := Text.run_unique hgap (by simp) (stops_of_opens hopens)
        (Text.stops_cons.mpr rfl) (List.append_cancel_left hword : gap ++ rest = [] ++ _)
      rw [hparen, opens_paren] at hopens
      cases hopens
    | require => cases (List.cons.inj hword).1
  · rw [heq] at hword
    cases loader <;> cases (List.cons.inj hword).1

/-- No line of a call but the first begins with a keyword: it goes on with a comment or the literal. -/
theorem not_keyword_behind_newline (htail : StaysQuiet tail) {kind : ImportKind}
    {indent rest : List Char} (hlast : left.getLast? = some '\n')
    (hindent : ∀ c ∈ indent, Text.isBlank c)
    (htext : left ++ (indent ++ ((ImportRule.keyword kind).toList ++ rest)) =
      callText loader fillers specifier tail) : False := by
  have hquiet := @staysQuiet_argumentText specifier tail htail
  rw [callText_eq] at htext
  rcases List.append_eq_append_iff.mp htext with ⟨w, hw, -⟩ | ⟨w, rfl, hw⟩
  · have hmem : '\n' ∈ loader.name.toList ++ ['('] :=
      hw ▸ List.mem_append_left _ (List.mem_of_getLast? hlast)
    cases loader <;> exact absurd hmem (by decide)
  · have hne : w ≠ [] := by
      rintro rfl
      rw [List.append_nil, List.getLast?_concat] at hlast
      cases hlast
    rw [List.getLast?_append_of_ne_nil _ hne] at hlast
    obtain ⟨after, hafter⟩ := exists_fillers_of_newline (fun hmem => (hquiet _ hmem).2 rfl) hlast hw
    obtain ⟨c, t, hc, hblank, hother⟩ : ∃ c t, (ImportRule.keyword kind).toList = c :: t ∧
        Text.isBlank c = false ∧ ¬ (c = '/' ∨ isQuote c) := by
      rcases keyword_cases kind with heq | heq <;> rw [heq] <;>
        exact ⟨_, _, rfl, by decide, by decide⟩
    have hbegins : fillerText after ++ argumentText specifier tail = indent ++ c :: (t ++ rest) := by
      rw [← hafter, hc]
      simp
    exact hother (eq_slash_or_isQuote beginsWith_argumentText hindent hblank hbegins)

/-- No rule for statements matches in a call. -/
theorem not_accepts_of_anchored (htail : StaysQuiet tail) (hrule : rule ∈ importRules)
    (ha : rule.anchored) (hs : rule.pattern.Accepts left s right gs)
    (htext : left ++ (s ++ right) = callText loader fillers specifier tail) : False := by
  obtain ⟨hline, indent, gap, rest, rfl, hindent, hgap, hopens⟩ := opens_of_anchored hrule ha hs
  simp only [List.append_assoc] at htext
  cases hlast : left.getLast? with
  | none =>
    obtain rfl := List.getLast?_eq_none_iff.mp hlast
    exact not_opens_at_start hindent hgap hopens htext
  | some c =>
    rw [hlast, Option.all_some, beq_iff_eq] at hline
    exact not_keyword_behind_newline htail (hline ▸ hlast) hindent htext

/-- No name of a function begins within the name of another one. -/
theorem eq_nil_of_callee_within {w : String} (hw : w ∈ functionNames) {u v : List Char}
    (h : loader.name.toList = u ++ (w.toList ++ v)) : u = [] := by
  have hlength : ∀ w ∈ functionNames, 6 ≤ w.toList.length := by decide
  have hall : ∀ w ∈ functionNames, ∀ name ∈ ["import", "require"],
      ∀ n ∈ List.range 2, w.toList <+: name.toList.drop n → n = 0 := by decide
  have hname : loader.name ∈ ["import", "require"] := by cases loader <;> decide
  have hshort : loader.name.toList.length ≤ 7 := by cases loader <;> decide
  have hle := hlength w hw
  have hu : u.length ∈ List.range 2 := by
    have heq := congrArg List.length h
    simp only [List.length_append] at heq
    exact List.mem_range.mpr (by omega)
  have hprefix : w.toList <+: loader.name.toList.drop u.length := by
    rw [h, List.drop_left]
    exact List.prefix_append _ _
  exact List.length_eq_zero_iff.mp (hall w hw _ hname _ hu hprefix)

/-- No name of a function begins as the name of another one does. -/
theorem eq_name_of_begins {w : String} (hw : w ∈ functionNames)
    (h : w.toList <+: loader.name.toList) : w = loader.name := by
  have hall : ∀ name ∈ ["import", "require"], ∀ w ∈ functionNames, w.toList <+: name.toList →
      w = name := by decide
  exact hall _ (by cases loader <;> decide) w hw h

/-- The name of a function begins with a character of a name. -/
theorem exists_cons_of_functionName {w : String} (hw : w ∈ functionNames) :
    ∃ c t, w.toList = c :: t ∧ inName c := by
  simp only [functionNames, List.mem_cons, List.not_mem_nil, or_false] at hw
  rcases hw with rfl | rfl | rfl <;> exact ⟨_, _, rfl, by decide⟩

/-- Where the name of a function with a parenthesis behind it stands in what follows a parenthesis, it
stands in blanks and comments, and is hidden. -/
theorem hidden_of_functionName {w : String} {u v t : List Char} (hw : w ∈ functionNames)
    (htail : StaysQuiet tail)
    (h : fillerText fillers ++ argumentText specifier tail = (u ++ (w.toList ++ v)) ++ '(' :: t) :
    inCommentOrLiteral (callText loader fillers specifier tail)
      (loader.name.toList ++ '(' :: u).length := by
  rcases cons_split h.symm with ⟨v', hfillers, -⟩ | ⟨u', -, hargument⟩
  · obtain ⟨c, chars, hchars, hname⟩ := exists_cons_of_functionName hw
    have hplace : fillerText fillers = u ++ c :: (chars ++ v ++ '(' :: v') := by
      rw [hfillers, hchars]
      simp
    have hhidden := hidden_of_name (endsInCode_callee loader) hplace hname
      (c :: (chars ++ v ++ '(' :: v') ++ argumentText specifier tail)
    have htext : callText loader fillers specifier tail = ((loader.name.toList ++ ['(']) ++ u) ++
        (c :: (chars ++ v ++ '(' :: v') ++ argumentText specifier tail) := by
      rw [callText_eq, hplace]
      simp
    have hlength : (loader.name.toList ++ '(' :: u).length =
        ((loader.name.toList ++ ['(']) ++ u).length := by simp
    rwa [htext, hlength]
  · have hmem : '(' ∈ argumentText specifier tail := hargument ▸ by simp
    exact absurd rfl (staysQuiet_argumentText htail '(' hmem).1

/-- A visible match of a rule for calls stands where the call does: the rule asks for its function,
and accepts what stands behind its parenthesis. -/
theorem argument_of_visible (htail : StaysQuiet tail) (hrule : rule ∈ importRules)
    (ha : rule.anchored = false) (hs : rule.pattern.Accepts left s right gs)
    (htext : left ++ (s ++ right) = callText loader fillers specifier tail)
    (hvisible : ¬ inCommentOrLiteral (callText loader fillers specifier tail) left.length) :
    left = [] ∧ loader.name ∈ callees rule.kind ∧ ∃ after left',
      after ++ right = fillerText fillers ++ argumentText specifier tail ∧
        (all (argument rule.kind)).Accepts left' after right gs := by
  obtain ⟨w, hw, before, after, left', rfl, ⟨l, r, hbefore⟩, hargument⟩ := accepts_call hrule ha hs
  have hname := mem_functionNames hw
  have hnoParen : ∀ w ∈ functionNames, '(' ∉ w.toList := by decide
  have hcut : loader.name.toList ++ '(' :: (fillerText fillers ++ argumentText specifier tail) =
      (left ++ w.toList) ++ (before ++ '(' :: (after ++ right)) := by
    rw [← callText, ← htext]
    simp
  rcases cons_split hcut with ⟨v, hleft, hrest⟩ | ⟨u, hu, hrest⟩
  · rcases cons_split hleft.symm with ⟨left₁, rfl, rfl⟩ | ⟨w', -, hw'⟩
    · have hplace : fillerText fillers ++ argumentText specifier tail =
          (left₁ ++ (w.toList ++ before)) ++ '(' :: (after ++ right) := by simpa using hrest
      exact absurd (hidden_of_functionName hname htail hplace) hvisible
    · exact absurd (show '(' ∈ w.toList from hw' ▸ by simp) (hnoParen w hname)
  · have hwithin : loader.name.toList = left ++ (w.toList ++ u) := by rw [hu, List.append_assoc]
    obtain rfl := eq_nil_of_callee_within hname hwithin
    obtain rfl := eq_name_of_begins hname ⟨u, hwithin.symm⟩
    obtain rfl : u = [] := by simpa using hwithin
    cases before with
    | nil => exact ⟨rfl, hw, after, left', (List.cons.inj hrest).2, hargument⟩
    | cons c before =>
      -- Neither a blank nor a comment begins with a parenthesis.
      obtain ⟨rfl, -⟩ := List.cons.inj hrest
      have hempty : (all []).Accepts l ('(' :: before) r [] :=
        accepts_of_blanks_comments rfl (by decide) rfl hbefore
      cases hempty.1

/-- A visible match in a call stands where the call does. -/
theorem argument_of_mem_findAll (htail : StaysQuiet tail) (hrule : rule ∈ importRules)
    {m : Pattern.Match} (hm : m ∈ rule.pattern.findAll (callText loader fillers specifier tail))
    (hvisible : ¬ rule.isHidden (callText loader fillers specifier tail) m) :
    m.start = 0 ∧ loader.name ∈ callees rule.kind ∧ ∃ after right left',
      after ++ right = fillerText fillers ++ argumentText specifier tail ∧
        (all (argument rule.kind)).Accepts left' after right m.groups := by
  obtain ⟨left, right, htext, hmatch⟩ := matchAfter_of_mem_findAll hm
  obtain ⟨s, right, rfl, hs, hstart, -⟩ := accepts_of_matchAfter hmatch
  cases ha : rule.anchored with
  | true => exact (not_accepts_of_anchored htail hrule ha hs htext.symm).elim
  | false =>
    rw [ImportRule.isHidden, ha, hstart] at hvisible
    obtain ⟨rfl, hcallee, after, left', hafter, hargument⟩ :=
      argument_of_visible htail hrule ha hs htext.symm (by simpa using hvisible)
    exact ⟨hstart, hcallee, after, right, left', hafter, hargument⟩

end Matches

end ImportAtlas.Clean
