import Mathlib.Data.List.TakeWhile
import ImportAtlas.Proofs.Import.StatementMatches

/-!
# What statements are written for

The construct in a statement of a clean module is accepted by the rule of its kind, which captures
the specifier, and no comment or literal before it hides it. So the rule has a match where the
construct stands, whatever comes behind it.
-/

namespace ImportAtlas.Clean

open Pattern ImportRule

open scoped Text.AlongRun

/-- A pattern takes a text wherever the text stands, and captures parts of it. -/
def Takes (p : Pattern) (s : List Char) (gs : List (List Char)) : Prop :=
  ∀ left right, p.Accepts left s right gs

section Takes

variable {p q : Pattern} {ps : List Pattern} {s t right : List Char} {gs hs : List (List Char)}

/-- Patterns one after the other take one text after the other. -/
theorem Takes.cons (hp : Takes p s gs) (hps : Takes (all ps) t hs) :
    Takes (all (p :: ps)) (s ++ t) (gs ++ hs) :=
  fun _ _ => ⟨s, t, gs, hs, rfl, rfl, hp _ _, hps _ _⟩

/-- A single pattern. -/
theorem Takes.single (hp : Takes p s gs) : Takes (all [p]) s gs := by
  have h : Takes (all [p]) (s ++ []) (gs ++ []) := hp.cons fun _ _ => ⟨rfl, rfl⟩
  rwa [List.append_nil, List.append_nil] at h

/-- Two patterns one after the other. -/
theorem Takes.seq (hp : Takes p s gs) (hq : Takes q t hs) :
    Takes (.seq p q) (s ++ t) (gs ++ hs) :=
  fun _ _ => ⟨s, t, gs, hs, rfl, rfl, hp _ _, hq _ _⟩

/-- The first of two patterns. -/
theorem Takes.inl (hp : Takes p s gs) : Takes (.alt p q) s gs := fun _ _ => .inl (hp _ _)

/-- The second of two patterns. -/
theorem Takes.inr (hq : Takes q s gs) : Takes (.alt p q) s gs := fun _ _ => .inr (hq _ _)

/-- No optional pattern. -/
theorem takes_optional_nil : Takes (optional p) [] [] := fun _ _ => .inr ⟨rfl, rfl⟩

/-- The first of several patterns takes what one of them takes. -/
theorem takes_firstOf (hmem : p ∈ ps) (hp : Takes p s gs) : Takes (firstOf ps) s gs :=
  fun _ _ => accepts_firstOf.mpr ⟨p, hmem, hp _ _⟩

/-- A fixed word. -/
theorem takes_word (w : String) : Takes (word w) w.toList [] :=
  fun _ _ => accepts_text.mpr ⟨rfl, rfl⟩

/-- A fixed character. -/
theorem takes_mark (c : Char) : Takes (mark c) [c] [] := fun _ _ => ⟨⟨c, beq_self_eq_true c, rfl⟩, rfl⟩

/-- No blank. -/
theorem takes_no_blanks : Takes blanks [] [] := fun _ _ => ⟨by simp, rfl⟩

/-- A space. -/
theorem takes_space : Takes blanks [' '] [] := fun _ _ => ⟨by decide, rfl⟩

/-- A space where a blank is needed. -/
theorem takes_gap : Takes gap [' '] [] := fun _ _ => accepts_some.mpr (by decide)

/-- No comment. -/
theorem takes_no_comments : Takes comments [] [] := fun _ _ => Rounds.nil

/-- A name. -/
theorem takes_name (bound : Name) : Takes name bound.chars [] :=
  fun _ _ => accepts_some.mpr ⟨bound.ne_nil, bound.inName, rfl⟩

/-- A list in braces. -/
theorem takes_braces (hs : ∀ c ∈ s, c ≠ '\x7d') : Takes braces ('\x7b' :: (s ++ ['\x7d'])) [] := by
  have hbody : Takes (many (· != '\x7d')) s [] := fun _ _ => ⟨fun c hc => bne_iff_ne.mpr (hs c hc), rfl⟩
  exact (takes_mark '\x7b').cons (hbody.cons (takes_mark '\x7d').single)

/-- A listing. -/
theorem takes_listing (names : Listing) : Takes braces names.text [] := by
  refine takes_braces fun c hc heq => ?_
  rw [heq] at hc
  exact absurd (names.plain _ hc) (by decide)

/-- A literal, of which the specifier is captured. -/
theorem takes_quoted (specifier : Literal) : Takes quoted specifier.text [specifier.inner] := by
  have hquote : Takes (one isQuote) [specifier.quote] [] := fun _ _ => ⟨⟨_, specifier.isQuote, rfl⟩, rfl⟩
  have hinner : Takes (capture (Pattern.some inSpecifier)) specifier.inner [specifier.inner] :=
    fun _ _ => ⟨[], accepts_some.mpr ⟨specifier.ne_nil, fun c hc => (specifier.plain c hc).1, rfl⟩, rfl⟩
  exact hquote.cons (hinner.cons hquote.single)

/-- The name given to a star. -/
theorem takes_alias (bound : Name) :
    Takes (all [blanks, word "as", gap, name]) (" as ".toList ++ bound.chars) [] := by
  have h := takes_space.cons ((takes_word "as").cons (takes_gap.cons (takes_name bound).single))
  simpa using h

/-- A star bound to a name. -/
theorem takes_namespace (bound : Name) : Takes namespaceBinding (starText (some bound)) [] :=
  (takes_mark '*').cons (takes_alias bound)

/-- A specifier with the word before it. -/
theorem takes_fromQuoted (specifier : Literal) :
    Takes fromQuoted (fromText ++ specifier.text) [specifier.inner] := by
  have h := takes_space.cons ((takes_word "from").cons (takes_space.cons (takes_quoted specifier).single))
  simpa [fromText_eq, fromQuoted] using h

/-- A specifier with the word before it, where a blank is needed. -/
theorem takes_gapFromQuoted (specifier : Literal) :
    Takes gapFromQuoted (fromText ++ specifier.text) [specifier.inner] := by
  have h := takes_gap.cons ((takes_word "from").cons (takes_space.cons (takes_quoted specifier).single))
  simpa [fromText_eq, gapFromQuoted] using h

/-- A group. -/
theorem takes_group (names : Group) : Takes (.alt braces namespaceBinding) names.text [] := by
  cases names with
  | star bound => exact (takes_namespace bound).inr
  | list names => exact (takes_listing names).inl

/-- A binding. -/
theorem takes_binding (binding : Binding) :
    Takes (firstOf [braces, namespaceBinding, name]) binding.text [] := by
  rcases binding with bound | bound | names
  · exact takes_firstOf (by simp) (takes_name bound)
  · exact takes_firstOf (by simp) (takes_namespace bound)
  · exact takes_firstOf (by simp) (takes_listing names)

/-- A default binding before other bindings. -/
theorem takes_default (bound : Name) :
    Takes (all [name, blanks, mark ',', blanks]) (bound.chars ++ ", ".toList) [] :=
  (takes_name bound).cons (takes_no_blanks.cons ((takes_mark ',').cons takes_space.single))

/-- A clause of attributes. -/
theorem takes_attributes (attributes : Attributes) : Takes attributeClause attributes.text [] := by
  have hword : Takes (.alt (word "assert") (word "with")) attributes.word.toList [] := by
    cases attributes with
    | assertion => exact (takes_word "assert").inl
    | options => exact (takes_word "with").inr
  have hbraces : Takes braces "\x7b type: \x27json\x27 \x7d".toList [] :=
    @takes_braces " type: \x27json\x27 ".toList (by decide)
  exact takes_space.cons (hword.cons (takes_space.cons hbraces.single))

end Takes

/-- The construct in a statement is accepted by the rule of its kind, and visible to it. -/
def Statement.IsAccepted (statement : Statement) : Prop :=
  ∃ rule ∈ importRules, rule.kind = statement.kind ∧
    (rule.anchored ∨ inCommentOrLiteral statement.text statement.lead.length = false) ∧
      ∀ right, ∃ gs, rule.pattern.Accepts statement.lead statement.construct right gs

section Static

variable {rule : ImportRule} {form : Form} {specifier : Literal} {attributes : Option Attributes}
  {p : Pattern} {ps : List Pattern} {s : List Char} {gs : List (List Char)}

/-- A statement with a keyword is accepted if a rule takes what stands behind the space after the
keyword. The rule may ask for a blank there or allow one. -/
theorem isAccepted_of_takes
    (hrule : importRules.find? (·.kind = (Statement.static form specifier attributes).kind) = Option.some rule)
    (ha : rule.anchored)
    (hpattern : rule.pattern = all (indentation :: word form.keyword :: p :: ps))
    (hspace : Takes p [' '] []) (h : Takes (all ps) s gs)
    (hs : form.subject ++ (specifier.text ++
      if (Statement.static form specifier attributes).kind = .importAttributes then
        attributesText attributes
      else []) = s) :
    (Statement.static form specifier attributes).IsAccepted := by
  have hindentation (right : List Char) : indentation.Accepts [] [] right [] :=
    ⟨[], [], [], [], rfl, rfl, ⟨rfl, rfl, rfl⟩, by simp, rfl⟩
  have hline := (takes_word form.keyword).cons (hspace.cons h)
  have hkind : rule.kind = (Statement.static form specifier attributes).kind := by
    simpa using List.find?_some hrule
  refine ⟨rule, List.mem_of_find?_eq_some hrule, hkind, .inl ha, fun right => ⟨gs, ?_⟩⟩
  rw [hpattern, construct_static, Form.head, List.append_assoc, List.cons_append, hs]
  exact ⟨[], _, [], gs, rfl, rfl, hindentation _, hline _ _⟩

/-- An import of bindings is accepted. -/
theorem isAccepted_bindings (clause : Clause) :
    (Statement.static (.bindings clause) specifier attributes).IsAccepted := by
  cases attributes with
  | none =>
    rcases clause with (bound | bound | names) | ⟨bound, names⟩
    · exact isAccepted_of_takes rfl rfl rfl takes_gap
        ((takes_name bound).cons (takes_gapFromQuoted specifier).single)
        (by simp [Form.subject, Clause.text, Binding.text, Statement.kind])
    · exact isAccepted_of_takes rfl rfl rfl takes_space
        ((takes_namespace bound).cons (takes_gapFromQuoted specifier).single)
        (by simp [Form.subject, Clause.text, Binding.text, Group.text, Statement.kind])
    · exact isAccepted_of_takes rfl rfl rfl takes_space
        ((takes_listing names).cons (takes_fromQuoted specifier).single)
        (by simp [Form.subject, Clause.text, Binding.text, Group.text, Statement.kind])
    · exact isAccepted_of_takes rfl rfl rfl takes_gap
        ((takes_name bound).cons (takes_no_blanks.cons ((takes_mark ',').cons (takes_space.cons
          ((takes_group names).cons (takes_fromQuoted specifier).single)))))
        (by simp [Form.subject, Clause.text, Statement.kind])
  | some attributes =>
    have hattributes := takes_attributes attributes
    cases clause with
    | one binding =>
      exact isAccepted_of_takes rfl rfl rfl takes_space
        (takes_optional_nil.cons
          ((takes_binding binding).cons ((takes_fromQuoted specifier).cons hattributes)))
        (by simp [Form.subject, Clause.text, Statement.kind, attributesText])
    | both bound names =>
      exact isAccepted_of_takes rfl rfl rfl takes_space
        ((takes_default bound).inl.cons
          ((takes_binding (.group names)).cons ((takes_fromQuoted specifier).cons hattributes)))
        (by simp [Form.subject, Clause.text, Binding.text, Statement.kind, attributesText])

/-- A statement with a keyword is accepted. -/
theorem isAccepted_static (form : Form) (specifier : Literal) (attributes : Option Attributes) :
    (Statement.static form specifier attributes).IsAccepted := by
  cases form with
  | bindings clause => exact isAccepted_bindings clause
  | source bound =>
    exact isAccepted_of_takes rfl rfl rfl takes_gap
      ((takes_word "source").cons (takes_gap.cons
        ((takes_name bound).cons (takes_gapFromQuoted specifier).single)))
      (by simp [Form.subject, sourceText_eq, Statement.kind])
  | bare =>
    exact isAccepted_of_takes rfl rfl rfl takes_space (takes_quoted specifier).single
      (by simp [Form.subject, Statement.kind])
  | types binding =>
    exact isAccepted_of_takes rfl rfl rfl takes_gap
      ((takes_word "type").cons (takes_gap.cons
        ((takes_binding binding).cons (takes_fromQuoted specifier).single)))
      (by simp [Form.subject, typeText_eq, Statement.kind])
  | all bound =>
    have hfrom := (takes_fromQuoted specifier).single
    cases bound with
    | none =>
      exact isAccepted_of_takes rfl rfl rfl takes_space
        ((takes_mark '*').cons (takes_optional_nil.cons hfrom))
        (by simp [Form.subject, starText, Statement.kind])
    | some bound =>
      exact isAccepted_of_takes rfl rfl rfl takes_space
        ((takes_mark '*').cons ((takes_alias bound).inl.cons hfrom))
        (by simp [Form.subject, starText, Statement.kind])
  | list names =>
    exact isAccepted_of_takes rfl rfl rfl takes_space
      ((takes_listing names).cons (takes_fromQuoted specifier).single)
      (by simp [Form.subject, Statement.kind])
  | allTypes =>
    exact isAccepted_of_takes rfl rfl rfl takes_gap
      ((takes_word "type").cons (takes_gap.cons
        (((takes_mark '*').seq takes_optional_nil).inr.cons (takes_fromQuoted specifier).single)))
      (by simp [Form.subject, typeText_eq, starText, Statement.kind])
  | listTypes names =>
    exact isAccepted_of_takes rfl rfl rfl takes_gap
      ((takes_word "type").cons (takes_gap.cons
        ((takes_listing names).inl.cons (takes_fromQuoted specifier).single)))
      (by simp [Form.subject, typeText_eq, Statement.kind])

end Static

section Call

variable {bound : Name} {loading : Call} {rule : ImportRule} {ps : List Pattern} {s : List Char}
  {gs : List (List Char)}

/-- An opening parenthesis. -/
theorem takes_openCall : Takes openCall ['('] [] :=
  takes_no_blanks.cons (takes_no_comments.cons ((takes_mark '(').cons
    (takes_no_blanks.cons takes_no_comments.single)))

/-- The first character of a name begins a computed argument. -/
theorem takes_computedArgument (argument : Name) : Takes computedArgument (argument.chars.take 1) [] := by
  obtain ⟨c, chars, hchars⟩ := List.exists_cons_of_ne_nil argument.ne_nil
  have hname : inName c := argument.inName c (hchars ▸ List.mem_cons_self)
  have hquote : isQuote c = false := by
    by_contra hquote
    rw [inName_of_isQuote (Bool.not_eq_false _ ▸ hquote)] at hname
    cases hname
  have hslash : c ≠ '/' := by
    rintro rfl
    cases hname
  rw [hchars]
  exact Takes.inl fun _ _ => ⟨⟨c, by simp [hquote, isBlank_of_inName hname, hslash], rfl⟩, rfl⟩

/-- The name of a function begins a word behind a blank. -/
theorem edge_callee (loading : Call) (bound : Name) (rest : List Char) :
    wordBeside (loading.lead bound).getLast? != wordBeside (loading.callee.toList ++ rest).head? := by
  have hname : ∀ w ∈ functionNames, wordBeside (some ' ') != wordBeside w.toList.head? := by decide
  have hne : ∀ w ∈ functionNames, w.toList ≠ [] := by decide
  rw [getLast?_lead, List.head?_append_of_ne_nil _ (hne _ (callee_mem loading))]
  exact hname _ (callee_mem loading)

/-- Behind plain code, a reader of a line is still in code. -/
theorem after_code_append {line : List Char} (h : ∀ c ∈ line, c ≠ '/' ∧ isQuote c = false)
    (rest : List Char) : LineContext.after .code (line ++ rest) = LineContext.after .code rest := by
  induction line with
  | nil => rfl
  | cons c line ih =>
    obtain ⟨⟨hslash, hquote⟩, hline⟩ := List.forall_mem_cons.mp h
    rw [List.cons_append, LineContext.after, hquote]
    · exact ih hline
    · exact fun _ hc _ => hslash hc
    · exact fun _ hc _ => hslash hc

/-- What means nothing to a call is plain code. -/
theorem plain_of_notMem_callMarks {c : Char} (h : c ∉ callMarks) : c ≠ '/' ∧ isQuote c = false := by
  refine ⟨fun heq => h (heq ▸ by decide), ?_⟩
  by_contra hquote
  simp only [isQuote, Bool.not_eq_false, Bool.or_eq_true, beq_iff_eq] at hquote
  rcases hquote with (rfl | rfl) | rfl <;> exact h (by decide)

/-- No comment and no literal hides a call. -/
theorem inCommentOrLiteral_call (bound : Name) (loading : Call) :
    inCommentOrLiteral (Statement.call bound loading).text (loading.lead bound).length = false := by
  have hplain : ∀ c ∈ (loading.lead bound).reverse, c != '\n' := by
    intro c hc
    rw [bne_iff_ne]
    rintro rfl
    exact notMem_of_mem_lead (List.mem_reverse.mp hc) (by decide)
  have hline : lineBefore (Statement.call bound loading).text (loading.lead bound).length =
      loading.lead bound := by
    rw [lineBefore, Statement.text, List.take_left, List.takeWhile_eq_self_iff.mpr hplain,
      List.reverse_reverse]
  have hcode := after_code_append (fun c hc => plain_of_notMem_callMarks
    (@notMem_of_mem_lead bound loading c hc)) []
  rw [List.append_nil] at hcode
  rw [inCommentOrLiteral, hline, hidesWhatFollows, hcode]
  rfl

/-- A call is accepted if a rule takes the name of its function and what belongs to the call behind
the name. -/
theorem isAccepted_of_takes_call
    (hrule : importRules.find? (·.kind = (Statement.call bound loading).kind) = Option.some rule)
    (hpattern : rule.pattern = all (wordEdge :: ps)) (h : Takes (all ps) s gs)
    (hs : (Statement.call bound loading).construct = s) :
    (Statement.call bound loading).IsAccepted := by
  have hkind : rule.kind = (Statement.call bound loading).kind := by
    simpa using List.find?_some hrule
  refine ⟨rule, List.mem_of_find?_eq_some hrule, hkind, .inr (inCommentOrLiteral_call bound loading),
    fun right => ⟨gs, ?_⟩⟩
  rw [hpattern, hs]
  refine ⟨[], s, [], gs, rfl, rfl, ⟨?_, rfl, rfl⟩, h _ _⟩
  rw [← hs]
  exact List.append_assoc _ _ right ▸ edge_callee loading bound _

/-- A call is accepted. -/
theorem isAccepted_call (bound : Name) (loading : Call) : (Statement.call bound loading).IsAccepted := by
  cases loading with
  | require specifier =>
    exact isAccepted_of_takes_call rfl rfl
      ((takes_word "require").cons (takes_no_blanks.cons ((takes_mark '(').cons (takes_no_blanks.cons
        (takes_no_comments.cons ((takes_quoted specifier).cons (takes_no_blanks.cons
          (takes_no_comments.cons (takes_mark ')').single))))))))
      (by simp [Statement.construct, Call.callee, Call.taken])
  | load specifier =>
    exact isAccepted_of_takes_call rfl rfl
      ((takes_word "import").cons (takes_openCall.cons (takes_quoted specifier).single))
      (by simp [Statement.construct, Call.callee, Call.taken])
  | loadSource specifier =>
    exact isAccepted_of_takes_call rfl rfl
      ((takes_word "import.source").cons (takes_openCall.cons (takes_quoted specifier).single))
      (by simp [Statement.construct, Call.callee, Call.taken])
  | computed argument =>
    exact isAccepted_of_takes_call rfl rfl
      ((takes_word "import").cons (takes_optional_nil.cons
        (takes_openCall.cons (takes_computedArgument argument).single)))
      (by simp [Statement.construct, Call.callee, Call.taken])

end Call

/-- A statement, cut behind the construct in it. -/
theorem exists_text_eq (statement : Statement) :
    ∃ right, statement.text = statement.lead ++ (statement.construct ++ right) := by
  cases statement with
  | static form specifier attributes =>
    rw [construct_static, Statement.text, Statement.lead]
    split
    · exact ⟨[';', '\n'], by simp⟩
    · exact ⟨attributesText attributes ++ [';', '\n'], by simp⟩
  | call bound loading =>
    have htaken : loading.taken <+: loading.argument ++ [')', ';', '\n'] := by
      cases loading with
      | require specifier | load specifier | loadSource specifier => simp [Call.taken, Call.argument]
      | computed argument => exact (List.take_prefix 1 _).trans (List.prefix_append _ _)
    obtain ⟨right, hright⟩ := htaken
    exact ⟨right, by simp [Statement.text, Statement.lead, Statement.construct, hright]⟩

/-- The construct in each statement is accepted. -/
theorem isAccepted (statement : Statement) : statement.IsAccepted := by
  cases statement with
  | static form specifier attributes => exact isAccepted_static form specifier attributes
  | call bound loading => exact isAccepted_call bound loading

end ImportAtlas.Clean
