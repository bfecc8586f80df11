import ImportAtlas.Proofs.Import.CleanModule

/-!
# Where rules match in a clean module

A rule for statements matches at the start of a statement with a keyword and nowhere else: the other
starts of lines lie in a listing, whose closing brace comes before any quote. A rule for calls
matches at the function of a call and nowhere else, as each parenthesis has its function right
before it.
-/

namespace ImportAtlas.Clean

open ImportRule

open scoped Text.AlongRun

/-- What a statement with a keyword may have before its specifier: no quotes outside of braces, line
breaks in braces alone, and no call. -/
structure IsHead (s : List Char) : Prop where
  skimmed : IsSkimmed s
  folded : ∀ before after, s = before ++ after → before.getLast? = some '\n' →
    ∀ rest, beginsWith (· == '\x7d') (skim false (after ++ rest))
  noCall : '(' ∉ s

/-- The characters that mean something in a statement and stand in no plain text. -/
def marks : List Char := '\n' :: '(' :: signs

/-- A text that ends with a character has it. -/
theorem mem_of_getLast?_append {s before after : List Char} {c : Char} (h : s = before ++ after)
    (hlast : before.getLast? = some c) : c ∈ s := by
  rw [h]
  exact List.mem_append_left _ (List.mem_of_getLast? hlast)

/-- A plain text. -/
theorem isHead_of_notMem {s : List Char} (hs : ∀ c ∈ s, c ∉ marks) : IsHead s where
  skimmed := isSkimmed_of_notMem fun c hc hsign =>
    hs c hc (List.mem_cons_of_mem _ (List.mem_cons_of_mem _ hsign))
  folded := fun _ _ hsplit hlast =>
    absurd (List.mem_cons_self) (hs '\n' (mem_of_getLast?_append hsplit hlast))
  noCall := fun hmem => hs '(' hmem (List.mem_cons_of_mem _ List.mem_cons_self)

/-- One text after the other. -/
theorem IsHead.append {s t : List Char} (hs : IsHead s) (ht : IsHead t) : IsHead (s ++ t) where
  skimmed := hs.skimmed.append ht.skimmed
  noCall := by
    rw [List.mem_append, not_or]
    exact ⟨hs.noCall, ht.noCall⟩
  folded := by
    intro before after hsplit hlast rest
    rcases List.append_eq_append_iff.mp hsplit with ⟨between, rfl, rfl⟩ | ⟨between, rfl, rfl⟩
    · by_cases hne : between = []
      · -- The line breaks between the two texts: the first would have to go on to a brace.
        rw [hne, List.append_nil] at hlast
        exact hs.folded s [] (List.append_nil s).symm hlast (after ++ rest)
      · have hlast' : between.getLast? = some '\n' := by
          rwa [List.getLast?_append_of_ne_nil _ hne] at hlast
        exact ht.folded between after rfl hlast' rest
    · rw [List.append_assoc]
      exact hs.folded before between rfl hlast (t ++ rest)

/-- A text of a class without marks. -/
theorem isHead_of_class {belongs : Char → Bool} {s : List Char} (hs : ∀ c ∈ s, belongs c)
    (hmarks : ∀ c ∈ marks, belongs c = false) : IsHead s :=
  isHead_of_notMem fun c hc hmark => absurd (hs c hc) (by simp [hmarks c hmark])

/-- A name. -/
theorem isHead_name (bound : Name) : IsHead bound.chars := isHead_of_class bound.inName (by decide)

/-- A listing. -/
theorem isHead_listing (names : Listing) : IsHead names.text := by
  have hplain : ∀ c ∈ names.chars, c ∉ '(' :: signs := by
    have hmarks : ∀ c ∈ '(' :: signs, inListing c = false := by decide
    exact fun c hc hmark => absurd (names.plain c hc) (by simp [hmarks c hmark])
  have hsigns : ∀ c ∈ names.chars, c ∉ signs := fun c hc hsign =>
    hplain c hc (List.mem_cons_of_mem _ hsign)
  have hclose : ∀ c ∈ names.chars, c ≠ '\x7d' := fun c hc heq => hsigns c hc (heq ▸ by decide)
  have hfolded : ∀ before after, names.text = before ++ after → before.getLast? = some '\n' →
      ∃ left, (∀ c ∈ left, c ∉ signs) ∧ after = left ++ ['\x7d'] := by
    intro before after hsplit hlast
    cases before with
    | nil => cases hlast
    | cons c before =>
      obtain ⟨rfl, htail⟩ := List.cons.inj hsplit
      rcases List.append_eq_append_iff.mp htail with ⟨between, rfl, hclosing⟩ | ⟨left, hleft, rfl⟩
      · rcases List.singleton_eq_append_iff.mp hclosing with ⟨rfl, rfl⟩ | ⟨rfl, rfl⟩
        · exact ⟨[], by simp, rfl⟩
        · -- The text ends with the brace, which is no line break.
          rw [← List.cons_append, List.getLast?_concat] at hlast
          cases hlast
      · exact ⟨left, fun c hc => hsigns c (hleft ▸ List.mem_append_right _ hc), rfl⟩
  refine ⟨isSkimmed_braces hclose, fun before after hsplit hlast rest => ?_, fun hmem => ?_⟩
  · obtain ⟨left, hleft, rfl⟩ := hfolded before after hsplit hlast
    rw [List.append_assoc, isSkimmed_of_notMem hleft]
    rfl
  · rcases List.mem_cons.mp hmem with heq | hmem
    · cases heq
    · rcases List.mem_append.mp hmem with hmem | hmem
      · exact hplain _ hmem List.mem_cons_self
      · cases List.mem_singleton.mp hmem

/-- A star, under a name or not. -/
theorem isHead_star (bound : Option Name) : IsHead (starText bound) := by
  cases bound with
  | none => exact isHead_of_notMem (by decide)
  | some bound =>
    have hstar : IsHead ('*' :: " as ".toList) := isHead_of_notMem (by decide)
    exact hstar.append (isHead_name bound)

/-- A group. -/
theorem isHead_group (names : Group) : IsHead names.text := by
  cases names with
  | star bound => exact isHead_star (some bound)
  | list names => exact isHead_listing names

/-- A binding. -/
theorem isHead_binding (binding : Binding) : IsHead binding.text := by
  cases binding with
  | default bound => exact isHead_name bound
  | group names => exact isHead_group names

/-- What an import binds. -/
theorem isHead_clause (clause : Clause) : IsHead clause.text := by
  cases clause with
  | one binding => exact isHead_binding binding
  | both bound names =>
    exact (isHead_name bound).append ((isHead_of_notMem (by decide)).append (isHead_group names))

/-- What stands between a keyword and a specifier. -/
theorem isHead_subject (form : Form) : IsHead form.subject := by
  have hfrom : IsHead fromText := isHead_of_notMem (by decide)
  have htype : IsHead typeText := isHead_of_notMem (by decide)
  cases form with
  | bindings clause => exact (isHead_clause clause).append hfrom
  | source bound =>
    have hsource : IsHead sourceText := isHead_of_notMem (by decide)
    exact hsource.append ((isHead_name bound).append hfrom)
  | bare => exact isHead_of_notMem (by decide)
  | types binding => exact htype.append ((isHead_binding binding).append hfrom)
  | all bound => exact (isHead_star bound).append hfrom
  | list names => exact (isHead_listing names).append hfrom
  | allTypes => exact htype.append ((isHead_star none).append hfrom)
  | listTypes names => exact htype.append ((isHead_listing names).append hfrom)

/-- A statement has one of two keywords. -/
theorem keyword_eq (form : Form) : form.keyword = "import" ∨ form.keyword = "export" := by
  cases form <;> simp [Form.keyword]

/-- What stands before a specifier. -/
theorem isHead_head (form : Form) : IsHead form.head := by
  have hkeyword : IsHead (form.keyword.toList ++ [' ']) := by
    rcases keyword_eq form with heq | heq <;> rw [heq] <;> exact isHead_of_notMem (by decide)
  have hhead := hkeyword.append (isHead_subject form)
  rwa [List.append_assoc] at hhead

/-- A quote is where skimming ends. -/
theorem skim_quote {q : Char} (hq : isQuote q) (rest : List Char) :
    skim false (q :: rest) = q :: rest := by
  rw [skim, hq, Bool.true_or, if_pos rfl]

/-- A literal behind a skimmed text is fixed by the text. -/
theorem literal_unique {head head' inner inner' rest rest' : List Char} {p p' q q' : Char}
    (hhead : IsSkimmed head) (hhead' : IsSkimmed head') (hp : isQuote p) (hp' : isQuote p')
    (hinner : ∀ c ∈ inner, inSpecifier c) (hinner' : ∀ c ∈ inner', inSpecifier c) (hq : isQuote q)
    (hq' : isQuote q')
    (h : head ++ p :: (inner ++ q :: rest) = head' ++ p' :: (inner' ++ q' :: rest')) :
    head = head' ∧ p = p' ∧ inner = inner' ∧ q = q' ∧ rest = rest' := by
  have hliteral := congrArg (skim false) h
  rw [hhead, hhead', skim_quote hp, skim_quote hp'] at hliteral
  rw [hliteral] at h
  obtain ⟨rfl, hrest⟩ := List.cons.inj hliteral
  have hplain {s : List Char} (hs : ∀ c ∈ s, inSpecifier c) : ∀ c ∈ s, !isQuote c := fun c hc =>
    (Bool.and_eq_true_iff.mp (hs c hc)).1
  have hstop {c : Char} {s : List Char} (hc : isQuote c) :
      Text.Stops (fun c => !isQuote c) (c :: s) := Text.stops_cons.mpr (by simp [hc])
  obtain ⟨rfl, hquote⟩ := Text.run_unique (hplain hinner) (hplain hinner') (hstop hq) (hstop hq') hrest
  obtain ⟨rfl, rfl⟩ := List.cons.inj hquote
  exact ⟨List.append_cancel_right h, rfl, rfl, rfl, rfl⟩

/-- A literal with what follows it up to the end of its line. -/
def tailText (specifier : Literal) (attributes : Option Attributes) : List Char :=
  specifier.text ++ (attributesText attributes ++ [';'])

/-- A statement with a keyword, cut before its specifier and before the end of its line. -/
theorem static_text_eq (form : Form) (specifier : Literal) (attributes : Option Attributes) :
    (Statement.static form specifier attributes).text =
      form.head ++ (tailText specifier attributes ++ ['\n']) := by
  simp [Statement.text, tailText]

/-- A quote is no other character. -/
theorem quote_ne {q c : Char} (hq : isQuote q) (hc : isQuote c = false) : q ≠ c := by
  rintro rfl
  rw [hq] at hc
  cases hc

/-- The line of a specifier does not end before its statement does. -/
theorem newline_notMem_tailText (specifier : Literal) (attributes : Option Attributes) :
    '\n' ∉ tailText specifier attributes := by
  have hquote : '\n' ≠ specifier.quote := (quote_ne specifier.isQuote rfl).symm
  have hinner : '\n' ∉ specifier.inner := fun hmem =>
    absurd (specifier.plain _ hmem).1 (by decide)
  have hattributes : '\n' ∉ attributesText attributes := by
    rcases attributes with - | - | - <;> decide
  simp [tailText, Literal.text, hquote, hinner, hattributes]

section Static

variable {rule : ImportRule} {left s right rest : List Char} {gs : List (List Char)} {form : Form}
  {specifier : Literal} {attributes : Option Attributes}

/-- A rule for statements comes to a quote before it comes to a brace that was not opened. -/
theorem not_folded_of_anchored (hrule : rule ∈ importRules) (ha : rule.anchored)
    (hs : rule.pattern.Accepts left s right gs) :
    ¬ beginsWith (· == '\x7d') (skim false (s ++ right)) := by
  obtain ⟨head, q, inner, q', left', after, rfl, hhead, hq, -⟩ := reads_of_anchored hrule ha hs
  rw [List.append_assoc, hhead, List.cons_append, skim_quote hq]
  exact fun hbrace => quote_ne hq rfl (beq_iff_eq.mp hbrace)

/-- A rule for statements matches at the start of a statement alone. -/
theorem eq_nil_of_static (hrule : rule ∈ importRules) (ha : rule.anchored)
    (hs : rule.pattern.Accepts left s right gs)
    (htext : left ++ (s ++ right) = (Statement.static form specifier attributes).text ++ rest)
    (hlt : left.length < (Statement.static form specifier attributes).text.length) : left = [] := by
  obtain ⟨hline, -⟩ := opens_of_anchored hrule ha hs
  have hskim := not_folded_of_anchored hrule ha hs
  by_contra hne
  have hlast : left.getLast? = some '\n' := by
    rw [List.getLast?_eq_some_getLast hne] at hline ⊢
    exact congrArg some (beq_iff_eq.mp hline)
  have hfolded := (isHead_head form).folded
  rw [static_text_eq] at htext hlt
  rw [List.append_assoc] at htext
  rcases List.append_eq_append_iff.mp htext with ⟨between, hfront, hback⟩ | ⟨between, rfl, hback⟩
  · rw [hback] at hskim
    exact hskim (hfolded left between hfront hlast _)
  · by_cases hempty : between = []
    · subst hempty
      rw [List.append_nil] at hlast
      exact hskim (hfolded form.head [] (List.append_nil _).symm hlast (s ++ right))
    · -- The line would end between the specifier and the end of its statement.
      rw [List.getLast?_append_of_ne_nil _ hempty] at hlast
      have hshort : between.length ≤ (tailText specifier attributes).length := by
        simp only [List.length_append, List.length_singleton] at hlt
        omega
      have hbegins : between <+: tailText specifier attributes :=
        List.prefix_of_prefix_length_le ⟨s ++ right, hback.symm⟩ ⟨'\n' :: rest, by simp⟩ hshort
      exact newline_notMem_tailText specifier attributes
        (hbegins.subset (List.mem_of_getLast? hlast))

/-- A rule that matches a statement takes its specifier and what stands before it. -/
theorem literal_of_static {behind : List Char} (hrule : rule ∈ importRules) (ha : rule.anchored)
    (hs : rule.pattern.Accepts [] s right gs)
    (htext : s ++ right = form.head ++ (specifier.text ++ behind)) :
    gs = [specifier.inner] ∧ ∃ after left', s = form.head ++ (specifier.text ++ after) ∧
      after ++ right = behind ∧
        (if rule.kind = .importAttributes then attributeClause else .empty).Accepts
          left' after right [] := by
  obtain ⟨head, q, inner, q', left', after, rfl, hhead, hq, hq', hinner, rfl, htail⟩ :=
    reads_of_anchored hrule ha hs
  have hplain : ∀ c ∈ specifier.inner, inSpecifier c := fun c hc => (specifier.plain c hc).1
  have hsplit : head ++ q :: (inner ++ q' :: (after ++ right)) =
      form.head ++ specifier.quote :: (specifier.inner ++ specifier.quote :: behind) := by
    simpa [Literal.text] using htext
  obtain ⟨rfl, rfl, rfl, rfl, rfl⟩ := literal_unique hhead (isHead_head form).skimmed hq
    specifier.isQuote hinner hplain hq' specifier.isQuote hsplit
  exact ⟨rfl, after, left', by simp [Literal.text], rfl, htail⟩

/-- A name begins with no blank. -/
theorem stops_name (bound : Name) (rest : List Char) :
    Text.Stops Text.isBlank (bound.chars ++ rest) := by
  obtain ⟨c, chars, hchars⟩ := List.exists_cons_of_ne_nil bound.ne_nil
  rw [hchars, List.cons_append, Text.stops_cons]
  exact isBlank_of_inName (bound.inName c (hchars ▸ List.mem_cons_self))

/-- What stands behind a keyword begins with no blank. -/
theorem stops_subject (form : Form) (specifier : Literal) (behind : List Char) :
    Text.Stops Text.isBlank (form.subject ++ (specifier.text ++ behind)) := by
  have hgroup (names : Group) (rest : List Char) : Text.Stops Text.isBlank (names.text ++ rest) := by
    cases names <;> exact Text.stops_cons.mpr rfl
  have hquote : Text.Stops Text.isBlank (specifier.text ++ behind) :=
    Text.stops_cons.mpr (isBlank_of_isQuote specifier.isQuote)
  have hclause (clause : Clause) (rest : List Char) : Text.Stops Text.isBlank (clause.text ++ rest) := by
    rcases clause with (bound | names) | ⟨bound, names⟩
    · exact stops_name bound rest
    · exact hgroup names rest
    · rw [Clause.text, List.append_assoc]
      exact stops_name bound _
  cases form with
  | bindings clause =>
    rw [Form.subject, List.append_assoc]
    exact hclause clause _
  | bare => exact hquote
  | all bound => cases bound <;> exact Text.stops_cons.mpr rfl
  | source | types | list | allTypes | listTypes => exact Text.stops_cons.mpr rfl

/-- A rule that matches a statement asks for its keyword and for what stands behind the keyword. -/
theorem opens_of_static {behind : List Char} (hrule : rule ∈ importRules) (ha : rule.anchored)
    (hs : rule.pattern.Accepts [] s right gs)
    (htext : s ++ right = form.head ++ (specifier.text ++ behind)) :
    ImportRule.keyword rule.kind = form.keyword ∧
      opens rule.kind (form.subject ++ (specifier.text ++ behind)) := by
  obtain ⟨-, indent, gap, rest, rfl, hindent, hgap, hopens⟩ := opens_of_anchored hrule ha hs
  have hfront : indent ++ ((ImportRule.keyword rule.kind).toList ++ (gap ++ (rest ++ right))) =
      [] ++ (form.keyword.toList ++ ([' '] ++ (form.subject ++ (specifier.text ++ behind)))) := by
    simpa [Form.head] using htext
  have hstop (t : List Char) : Text.Stops Text.isBlank (form.keyword.toList ++ t) := by
    rcases keyword_eq form with heq | heq <;> rw [heq] <;> exact Text.stops_cons.mpr rfl
  have hlength {w : String} (hw : w = "import" ∨ w = "export") : w.toList.length = 6 := by
    rcases hw with rfl | rfl <;> rfl
  obtain ⟨-, hback⟩ := Text.run_unique hindent (by simp) (stops_keyword _ _) (hstop _) hfront
  obtain ⟨hword, hsubject⟩ := List.append_inj hback
    ((hlength (keyword_cases _)).trans (hlength (keyword_eq form)).symm)
  have hspace : ∀ c ∈ [' '], Text.isBlank c := by decide
  obtain ⟨-, hrest⟩ := Text.run_unique hgap hspace (stops_of_opens hopens)
    (stops_subject form specifier behind) hsubject
  exact ⟨String.toList_inj.mp hword, hrest ▸ hopens⟩

/-- The two words that open a clause of attributes are names. -/
theorem inName_of_attributeWord {w : String} (hw : w = "assert" ∨ w = "with") :
    ∀ c ∈ w.toList, inName c := by
  rcases hw with rfl | rfl <;> decide

/-- The two words that open a clause of attributes begin with a letter. -/
theorem exists_cons_of_attributeWord {w : String} (hw : w = "assert" ∨ w = "with") :
    ∃ c t, w.toList = c :: t ∧ inName c := by
  rcases hw with rfl | rfl <;> exact ⟨_, _, rfl, by decide⟩

/-- A clause of attributes opens with one of two words. -/
theorem attributes_word_eq (attributes : Attributes) :
    attributes.word = "assert" ∨ attributes.word = "with" := by
  cases attributes <;> simp [Attributes.word]

/-- A clause of attributes is a word and a list in braces. -/
theorem accepts_attributeClause {after : List Char} (h : attributeClause.Accepts left after right gs) :
    ∃ gap w gap' body, (w = "assert" ∨ w = "with") ∧ (∀ c ∈ gap, Text.isBlank c) ∧
      (∀ c ∈ gap', Text.isBlank c) ∧ (∀ c ∈ body, c != '\x7d') ∧
        after = gap ++ (w.toList ++ (gap' ++ '\x7b' :: (body ++ ['\x7d']))) := by
  obtain ⟨gap, t, gs, hs, rfl, rfl, ⟨hgap, -⟩, w, t, gs, hs, rfl, rfl, hw, gap', t, gs, hs, rfl, rfl,
    ⟨hgap', -⟩, b, t, gs, hs, rfl, rfl, hbraces, rfl, -⟩ := h
  obtain ⟨_, t, gs, hs, rfl, rfl, ⟨⟨c, hc, rfl⟩, -⟩, body, t, gs, hs, rfl, rfl, ⟨hbody, -⟩, _, t, gs,
    hs, rfl, rfl, ⟨⟨d, hd, rfl⟩, -⟩, rfl, -⟩ := hbraces
  obtain rfl := beq_iff_eq.mp hc
  obtain rfl := beq_iff_eq.mp hd
  rcases hw with hw | hw
  · obtain ⟨rfl, -⟩ := Pattern.accepts_text.mp hw
    exact ⟨gap, "assert", gap', body, .inl rfl, hgap, hgap', hbody, by simp⟩
  · obtain ⟨rfl, -⟩ := Pattern.accepts_text.mp hw
    exact ⟨gap, "with", gap', body, .inr rfl, hgap, hgap', hbody, by simp⟩

/-- Behind a specifier, the rule for attributes takes the clause of the statement. -/
theorem after_of_attributeClause {after : List Char} (h : attributeClause.Accepts left after right gs)
    (htext : after ++ right = attributesText attributes ++ (';' :: rest)) :
    attributes ≠ none ∧ after = attributesText attributes := by
  obtain ⟨gap, w, gap', body, hw, hgap, hgap', hbody, rfl⟩ := accepts_attributeClause h
  have hstop {v : String} (hv : v = "assert" ∨ v = "with") (t : List Char) :
      Text.Stops Text.isBlank (v.toList ++ t) := by
    obtain ⟨c, u, hcons, hc⟩ := exists_cons_of_attributeWord hv
    rw [hcons, List.cons_append, Text.stops_cons]
    exact isBlank_of_inName hc
  have hsplit : gap ++ (w.toList ++ (gap' ++ '\x7b' :: (body ++ '\x7d' :: right))) =
      attributesText attributes ++ (';' :: rest) := by
    simpa using htext
  cases attributes with
  | none =>
    obtain ⟨-, hword⟩ := @Text.run_unique Text.isBlank gap [] _ _ hgap (by simp) (hstop hw _)
      (Text.stops_cons.mpr rfl) hsplit
    obtain ⟨c, t, hcons, hc⟩ := exists_cons_of_attributeWord hw
    rw [hcons] at hword
    rw [(List.cons.inj hword).1] at hc
    cases hc
  | some attributes =>
    have hspace : ∀ c ∈ [' '], Text.isBlank c := by decide
    have hown : attributesText (some attributes) ++ ';' :: rest = [' '] ++ (attributes.word.toList ++
        ([' '] ++ '\x7b' :: (" type: \x27json\x27 ".toList ++ '\x7d' :: ';' :: rest))) := by
      simp [attributesText, Attributes.text]
    rw [hown] at hsplit
    obtain ⟨rfl, hword⟩ := Text.run_unique hgap hspace (hstop hw _)
      (hstop (attributes_word_eq attributes) _) hsplit
    obtain ⟨hsame, hclause⟩ := Text.run_unique (inName_of_attributeWord hw)
      (inName_of_attributeWord (attributes_word_eq attributes))
      (stops_inName_append hgap' (Text.stops_cons.mpr rfl)) (Text.stops_cons.mpr rfl) hword
    obtain ⟨rfl, hbraces⟩ := Text.run_unique hgap' hspace (Text.stops_cons.mpr rfl)
      (Text.stops_cons.mpr rfl) hclause
    obtain ⟨rfl, -⟩ := Text.run_unique hbody (by decide) (Text.stops_cons.mpr rfl)
      (Text.stops_cons.mpr rfl) (List.cons.inj hbraces).2
    refine ⟨by simp, ?_⟩
    rw [hsame]
    simp [attributesText, Attributes.text]

end Static

section Rank

variable {kind : ImportKind} {rest : List Char}

/-- The kinds that open with a listing. -/
theorem mem_of_opens_listing (h : opens kind ('\x7b' :: rest)) :
    kind ∈ [.importAttributes, .namedImport, .exportNamed] := by
  cases kind <;> first | decide | cases h

/-- The kinds that open with a star. -/
theorem mem_of_opens_star (h : opens kind ('*' :: rest)) :
    kind ∈ [.importAttributes, .namespaceImport, .exportAll] := by
  cases kind <;> first | decide | cases h

/-- The kind that opens with a literal. -/
theorem eq_of_opens_quote {q : Char} (hq : isQuote q) (h : opens kind (q :: rest)) :
    kind = .sideEffectImport := by
  simp only [isQuote, Bool.or_eq_true, beq_iff_eq] at hq
  rcases hq with (rfl | rfl) | rfl <;> cases kind <;> first | rfl | cases h

/-- The kinds that open with a name, by the name and what stands behind it. -/
theorem cases_of_opens_name {name gap : List Char} (hne : name ≠ []) (hname : ∀ c ∈ name, inName c)
    (hgap : ∀ c ∈ gap, Text.isBlank c) (hstop : Text.Stops inName (gap ++ rest))
    (hrest : Text.Stops Text.isBlank rest) (h : opens kind (name ++ (gap ++ rest))) :
    kind = .defaultImport ∨ kind ∈ [.typeImport, .typeReexport] ∧ name = "type".toList ∨
      kind = .sourcePhase ∧ name = "source".toList ∨
        kind = .mixedImport ∧ beginsWith (· == ',') rest ∨
          kind = .importAttributes ∧ (beginsWith (· == ',') rest ∨ beginsWith isQuote rest ∨
            beginsWith isQuote (afterName rest)) := by
  have hleading : leadingName (name ++ (gap ++ rest)) = name := Text.takeWhile_run hname hstop
  have hafter : afterName (name ++ (gap ++ rest)) = rest := afterName_eq hname hgap hstop hrest
  have hother {c : Char} (hc : inName c = false) :
      beginsWith (· == c) (name ++ (gap ++ rest)) = false := by
    obtain ⟨d, name, rfl⟩ := List.exists_cons_of_ne_nil hne
    refine beq_eq_false_iff_ne.mpr fun heq => ?_
    rw [← heq, hname d List.mem_cons_self] at hc
    cases hc
  have hquote : beginsWith isQuote (name ++ (gap ++ rest)) = false := by
    obtain ⟨d, name, rfl⟩ := List.exists_cons_of_ne_nil hne
    by_contra hd
    have hd' := inName_of_isQuote (Bool.not_eq_false _ ▸ hd)
    rw [hname d List.mem_cons_self] at hd'
    cases hd'
  have hbrace : beginsWith (· == '\x7b') (name ++ (gap ++ rest)) = false := hother rfl
  have hstar : beginsWith (· == '*') (name ++ (gap ++ rest)) = false := hother rfl
  cases kind with
  | importAttributes =>
    simp only [opens, hbrace, hstar, hafter, Bool.false_or, Bool.and_eq_true, Bool.or_eq_true] at h
    exact .inr (.inr (.inr (.inr ⟨rfl, or_assoc.mp h.2⟩)))
  | mixedImport =>
    simp only [opens, hafter, Bool.and_eq_true] at h
    exact .inr (.inr (.inr (.inl ⟨rfl, h.2⟩)))
  | typeImport | typeReexport =>
    simp only [opens, hleading, beq_iff_eq] at h
    exact .inr (.inl ⟨by simp, h⟩)
  | sourcePhase =>
    simp only [opens, hleading, beq_iff_eq] at h
    exact .inr (.inr (.inl ⟨rfl, h⟩))
  | defaultImport => exact .inl rfl
  | namedImport | exportNamed => exact absurd h (by simp [opens, hbrace])
  | namespaceImport | exportAll => exact absurd h (by simp [opens, hstar])
  | sideEffectImport => exact absurd h (by simp [opens, hquote])
  | dynamicExpression | dynamicSource | dynamicImport | requireCall => cases h

/-- The place of a kind in the order of the rules. -/
def rank (kind : ImportKind) : ℕ := (importRules.map ImportRule.kind).idxOf kind

variable {form : Form} {specifier : Literal} {attributes : Option Attributes} {behind : List Char}

/-- The kinds that open with a name bound to the default of a module. -/
theorem mem_of_opens_default {bound : Name}
    (h : opens kind (bound.chars ++ (fromText ++ (specifier.text ++ behind)))) :
    kind ∈ [.importAttributes, .defaultImport] := by
  have hsplit : fromText ++ (specifier.text ++ behind) =
      [' '] ++ ('f' :: ("rom ".toList ++ (specifier.text ++ behind))) := rfl
  rw [hsplit] at h
  rcases cases_of_opens_name bound.ne_nil bound.inName (by decide) (Text.stops_cons.mpr rfl)
    (Text.stops_cons.mpr rfl) h with rfl | ⟨-, htype⟩ | ⟨-, hsource⟩ | ⟨-, hcomma⟩ | ⟨rfl, -⟩
  · decide
  · exact absurd htype bound.ne_type
  · exact absurd hsource bound.ne_source
  · cases hcomma
  · decide

/-- The kinds that open with a name and further bindings. -/
theorem mem_of_opens_both {bound : Name} {names : Group} {rest : List Char}
    (h : opens kind (bound.chars ++ (", ".toList ++ (names.text ++ rest)))) :
    kind ∈ [.importAttributes, .mixedImport, .defaultImport] := by
  have hsplit : ", ".toList ++ (names.text ++ rest) = [] ++ (',' :: ' ' :: (names.text ++ rest)) := rfl
  rw [hsplit] at h
  rcases cases_of_opens_name bound.ne_nil bound.inName (by decide) (Text.stops_cons.mpr rfl)
    (Text.stops_cons.mpr rfl) h with rfl | ⟨-, htype⟩ | ⟨-, hsource⟩ | ⟨rfl, -⟩ | ⟨rfl, -⟩
  · decide
  · exact absurd htype bound.ne_type
  · exact absurd hsource bound.ne_source
  · decide
  · decide

/-- The kinds that open with the source phase. -/
theorem mem_of_opens_source {bound : Name}
    (h : opens kind (sourceText ++ (bound.chars ++ (fromText ++ (specifier.text ++ behind))))) :
    kind ∈ [.sourcePhase, .defaultImport] := by
  have hother {belongs : Char → Bool} (hbelongs : ∀ c, inName c → belongs c = false)
      (rest : List Char) : beginsWith belongs (bound.chars ++ rest) = false := by
    obtain ⟨c, chars, hchars⟩ := List.exists_cons_of_ne_nil bound.ne_nil
    rw [hchars]
    exact hbelongs c (bound.inName c (hchars ▸ List.mem_cons_self))
  have hcomma : ∀ c, inName c → (c == ',') = false := fun c hc =>
    beq_eq_false_iff_ne.mpr fun heq => by rw [heq] at hc; cases hc
  have hquote : ∀ c, inName c → isQuote c = false := fun c hc => by
    by_contra hquote
    rw [inName_of_isQuote (Bool.not_eq_false _ ▸ hquote)] at hc
    cases hc
  have hstop : Text.Stops Text.isBlank (bound.chars ++ (fromText ++ (specifier.text ++ behind))) :=
    stops_name bound _
  have hfrom : afterName (bound.chars ++ (fromText ++ (specifier.text ++ behind))) =
      'f' :: ("rom ".toList ++ (specifier.text ++ behind)) :=
    @afterName_eq bound.chars [' '] _ bound.inName (by decide) (Text.stops_cons.mpr rfl)
      (Text.stops_cons.mpr rfl)
  have hsplit (rest : List Char) : sourceText ++ rest = "source".toList ++ ([' '] ++ rest) := rfl
  rw [hsplit] at h
  rcases cases_of_opens_name (by decide) (by decide) (by decide) (Text.stops_cons.mpr rfl) hstop h with
    rfl | ⟨-, htype⟩ | ⟨rfl, -⟩ | ⟨-, hbegins⟩ | ⟨-, hbegins | hbegins | hbegins⟩
  · decide
  · exact absurd htype (by decide)
  · decide
  · rw [hother hcomma] at hbegins
    cases hbegins
  · rw [hother hcomma] at hbegins
    cases hbegins
  · rw [hother hquote] at hbegins
    cases hbegins
  · rw [hfrom] at hbegins
    cases hbegins

/-- The kinds that can match an import of bindings come no earlier than its own. -/
theorem rank_le_of_bindings {clause : Clause} (own : ImportKind) {kinds : List ImportKind}
    (hown : (Statement.static (.bindings clause) specifier none).kind = own) (hmem : kind ∈ kinds)
    (hattributes : kind = .importAttributes → attributes ≠ none)
    (hplain : ∀ k ∈ kinds, k ≠ .importAttributes → rank own ≤ rank k)
    (hclause : ∀ k ∈ kinds, rank .importAttributes ≤ rank k) :
    rank (Statement.static (.bindings clause) specifier attributes).kind ≤ rank kind := by
  cases attributes with
  | none =>
    rw [hown]
    exact hplain kind hmem fun heq => hattributes heq rfl
  | some attributes => exact hclause kind hmem

/-- A rule that can match a statement comes no earlier than the rule of its kind. -/
theorem rank_le_of_opens (hkeyword : ImportRule.keyword kind = form.keyword)
    (hopens : opens kind (form.subject ++ (specifier.text ++ behind)))
    (hattributes : kind = .importAttributes → attributes ≠ none) :
    rank (Statement.static form specifier attributes).kind ≤ rank kind := by
  have hexport : ∀ k : ImportKind, ImportRule.keyword k = "export" → rank .typeReexport ≤ rank k := by
    intro k hk
    cases k <;> first | decide | exact absurd hk (by decide)
  cases form with
  | bindings clause =>
    rw [Form.subject, List.append_assoc] at hopens
    rcases clause with (bound | names | names) | ⟨bound, names⟩
    · exact rank_le_of_bindings .defaultImport rfl (mem_of_opens_default hopens) hattributes (by decide)
        (by decide)
    · exact rank_le_of_bindings .namespaceImport rfl (mem_of_opens_star hopens) hattributes (by decide)
        (by decide)
    · exact rank_le_of_bindings .namedImport rfl (mem_of_opens_listing hopens) hattributes (by decide)
        (by decide)
    · simp only [Clause.text, List.append_assoc] at hopens
      exact rank_le_of_bindings .mixedImport rfl (mem_of_opens_both hopens) hattributes (by decide)
        (by decide)
  | source bound =>
    simp only [Form.subject, List.append_assoc] at hopens
    have hrank : ∀ k ∈ [ImportKind.sourcePhase, .defaultImport], rank .sourcePhase ≤ rank k := by decide
    exact hrank kind (mem_of_opens_source hopens)
  | bare => exact (eq_of_opens_quote specifier.isQuote hopens) ▸ Nat.le_refl _
  | types binding =>
    have hfirst : rank .typeImport = 0 := by decide
    exact hfirst ▸ Nat.zero_le _
  | all bound =>
    have hstar : opens kind ('*' :: (((starText bound).drop 1 ++ fromText) ++
        (specifier.text ++ behind))) := by
      cases bound <;> exact hopens
    have hrank : ∀ k ∈ [ImportKind.importAttributes, .namespaceImport, .exportAll],
        ImportRule.keyword k = "export" → rank .exportAll ≤ rank k := by decide
    exact hrank kind (mem_of_opens_star hstar) hkeyword
  | list names =>
    have hrank : ∀ k ∈ [ImportKind.importAttributes, .namedImport, .exportNamed],
        ImportRule.keyword k = "export" → rank .exportNamed ≤ rank k := by decide
    exact hrank kind (mem_of_opens_listing hopens) hkeyword
  | allTypes => exact hexport kind hkeyword
  | listTypes names => exact hexport kind hkeyword

end Rank

end ImportAtlas.Clean
