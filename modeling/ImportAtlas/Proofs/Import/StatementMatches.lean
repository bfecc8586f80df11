import ImportAtlas.Proofs.Import.Statements

/-!
# What rules match in a statement

A match that begins in a statement of a clean module ends in it. It begins where the construct of
the statement begins, its rule comes no earlier than the rule of the kind of the statement, and a
match of that rule takes the construct and captures the specifier.
-/

namespace ImportAtlas.Clean

open Pattern ImportRule

open scoped Text.AlongRun

/-- A text behind which a parenthesis can open a call: its last line ends with a name and holds no
slash. -/
def OpensCall (s : List Char) : Prop :=
  ∃ before line, s = before ++ line ∧ before.getLast?.all (· == '\n') ∧
    (∀ c ∈ line, c ≠ '\n' ∧ c ≠ '/') ∧ ∃ c ∈ line.getLast?, inName c

/-- Each parenthesis of a text opens a call. -/
def CallsOpen (text : List Char) : Prop := ∀ u v, text = u ++ '(' :: v → OpensCall u

/-- No call opens behind a blank or a comment. -/
theorem not_opensCall_of_endsHidden {s : List Char} (h : EndsHidden s) : ¬ OpensCall s := by
  rintro ⟨before, line, rfl, hbefore, hline, c, hc, hname⟩
  have hlast : (before ++ line).getLast? = some c := by
    rw [List.getLast?_append, Option.mem_def.mp hc]
    rfl
  rcases h with ⟨d, hd, hblank⟩ | ⟨u, v, hsplit, hv⟩
  · rw [Option.mem_def, hlast, Option.some_inj] at hd
    rw [← hd, isBlank_of_inName hname] at hblank
    cases hblank
  · have hslash : '/' ∉ line := fun hmem => (hline '/' hmem).2 rfl
    rcases List.append_eq_append_iff.mp hsplit with ⟨w, rfl, rfl⟩ | ⟨w, rfl, hw⟩
    · exact hslash (by simp)
    · rcases List.cons_eq_append_iff.mp hw with ⟨rfl, rfl⟩ | ⟨w, rfl, rfl⟩
      · exact hslash (by simp)
      · -- The line begins behind the slash, so it is broken behind it.
        have hne : '/' :: w ≠ [] := List.cons_ne_nil _ _
        rw [List.getLast?_append_of_ne_nil _ hne, List.getLast?_eq_some_getLast hne] at hbefore
        have hmem : '\n' ∈ '/' :: w := beq_iff_eq.mp hbefore ▸ List.getLast_mem hne
        rcases List.mem_cons.mp hmem with heq | hmem
        · cases heq
        · exact hv (List.mem_append_left _ hmem)

/-- What opens a call does so behind the end of a line. -/
theorem OpensCall.append_left {s before : List Char} (h : OpensCall s)
    (hbefore : before.getLast?.all (· == '\n')) : OpensCall (before ++ s) := by
  obtain ⟨front, line, rfl, hfront, hline, hlast⟩ := h
  refine ⟨before ++ front, line, by rw [List.append_assoc], ?_, hline, hlast⟩
  rwa [Pattern.all_newline_append hbefore]

/-- A character at a place of two texts lies in the one or in the other. -/
theorem cons_split {u v s t : List Char} {c : Char} (h : u ++ c :: v = s ++ t) :
    (∃ v', s = u ++ c :: v' ∧ v = v' ++ t) ∨ ∃ u', u = s ++ u' ∧ t = u' ++ c :: v := by
  rcases List.append_eq_append_iff.mp h with ⟨w, rfl, hw⟩ | ⟨w, rfl, rfl⟩
  · rcases List.cons_eq_append_iff.mp hw with ⟨rfl, rfl⟩ | ⟨w, rfl, rfl⟩
    · exact .inr ⟨[], by simp, rfl⟩
    · exact .inl ⟨w, rfl, rfl⟩
  · exact .inr ⟨w, rfl, rfl⟩

/-- A literal opens no call. -/
theorem paren_notMem_literal (specifier : Literal) : '(' ∉ specifier.text := by
  have hquote : '(' ≠ specifier.quote := (quote_ne specifier.isQuote rfl).symm
  have hinner : '(' ∉ specifier.inner := fun hmem => (specifier.plain _ hmem).2 rfl
  simp [Literal.text, hquote, hinner]

/-- A name opens no call. -/
theorem paren_notMem_name (bound : Name) : '(' ∉ bound.chars := fun hmem =>
  absurd (bound.inName _ hmem) (by decide)

/-- A statement with a keyword opens no call. -/
theorem paren_notMem_static (form : Form) (specifier : Literal) (attributes : Option Attributes) :
    '(' ∉ (Statement.static form specifier attributes).text := by
  have hattributes : '(' ∉ attributesText attributes := by
    rcases attributes with - | - | - <;> decide
  simp [Statement.text, (isHead_head form).noCall, paren_notMem_literal, hattributes]

/-- The functions that are called. -/
def functionNames : List String := ["import", "import.source", "require"]

/-- A call calls one of the functions. -/
theorem callee_mem (loading : Call) : loading.callee ∈ functionNames := by
  cases loading <;> simp [Call.callee, functionNames]

/-- The characters that mean something before a call on its line. -/
def callMarks : List Char := ['\n', '/', '(', '\x27', '\x22', '\x60']

/-- A constant is bound with or without a wait for the call. -/
theorem binding_eq (loading : Call) :
    loading.binding = " = ".toList ∨ loading.binding = " = await ".toList := by
  cases loading <;> simp [Call.binding]

/-- What stands before a function that is called means nothing to the call. -/
theorem notMem_of_mem_lead {bound : Name} {loading : Call} {c : Char}
    (hc : c ∈ loading.lead bound) : c ∉ callMarks := by
  have hname : ∀ m ∈ callMarks, inName m = false := by decide
  have hconst : ∀ c ∈ "const ".toList, c ∉ callMarks := by decide
  have hbinding : ∀ c ∈ loading.binding, c ∉ callMarks := by
    rcases binding_eq loading with heq | heq <;> rw [heq] <;> decide
  intro hmark
  rcases List.mem_append.mp hc with hc | hc
  · exact hconst c hc hmark
  · rcases List.mem_append.mp hc with hc | hc
    · exact absurd (bound.inName c hc) (by simp [hname c hmark])
    · exact hbinding c hc hmark

/-- A blank stands before a function that is called. -/
theorem getLast?_lead (bound : Name) (loading : Call) : (loading.lead bound).getLast? = some ' ' := by
  have hbinding : loading.binding.getLast? = some ' ' := by
    rcases binding_eq loading with heq | heq <;> rw [heq] <;> decide
  rw [Call.lead_eq, List.getLast?_append, List.getLast?_append, hbinding]
  rfl

/-- A function that is called is plain and ends with a character of a name. -/
theorem callee_spec (loading : Call) :
    (∀ c ∈ loading.callee.toList, c ∉ callMarks) ∧
      ∃ c ∈ loading.callee.toList.getLast?, inName c := by
  have hplain : ∀ w ∈ functionNames, ∀ c ∈ w.toList, c ∉ callMarks := by decide
  have hlast : ∀ w ∈ functionNames, w.toList.getLast?.any inName := by decide
  exact ⟨hplain _ (callee_mem loading), Option.any_eq_true _ _ |>.mp (hlast _ (callee_mem loading))⟩

/-- A call, cut at its parenthesis. -/
theorem call_text_eq (bound : Name) (loading : Call) :
    (Statement.call bound loading).text =
      (loading.lead bound ++ loading.callee.toList) ++ '(' :: (loading.argument ++ [')', ';', '\n']) := by
  simp [Statement.text]

/-- Where the parenthesis of a call stands, a call opens. -/
theorem opensCall_call (bound : Name) (loading : Call) :
    OpensCall (loading.lead bound ++ loading.callee.toList) := by
  obtain ⟨hplain, c, hc, hname⟩ := callee_spec loading
  refine ⟨[], loading.lead bound ++ loading.callee.toList, rfl, rfl, fun d hd => ?_, c, ?_, hname⟩
  · have hmark : d ∉ callMarks := (List.mem_append.mp hd).elim notMem_of_mem_lead (hplain d)
    constructor
    · rintro rfl
      exact hmark (by decide)
    · rintro rfl
      exact hmark (by decide)
  · rw [List.getLast?_append, Option.mem_def.mp hc]
    rfl

/-- A statement ends with its line. -/
theorem exists_concat (statement : Statement) : ∃ body, statement.text = body ++ ['\n'] := by
  cases statement with
  | static form specifier attributes =>
    exact ⟨form.head ++ tailText specifier attributes, by rw [static_text_eq, List.append_assoc]⟩
  | call bound loading =>
    exact ⟨loading.lead bound ++ loading.callee.toList ++ '(' :: (loading.argument ++ [')', ';']),
      by simp [call_text_eq]⟩

/-- The parenthesis of a call stands behind its function, and there is no other. -/
theorem eq_of_call_text {bound : Name} {loading : Call} {u v : List Char}
    (h : (Statement.call bound loading).text = u ++ '(' :: v) :
    u = loading.lead bound ++ loading.callee.toList ∧ v = loading.argument ++ [')', ';', '\n'] := by
  have hfront : '(' ∉ loading.lead bound ++ loading.callee.toList := fun hmem =>
    (List.mem_append.mp hmem).elim (notMem_of_mem_lead · (by decide))
      ((callee_spec loading).1 _ · (by decide))
  have hargument : '(' ∉ loading.argument := by
    cases loading with
    | require specifier | load specifier | loadSource specifier => exact paren_notMem_literal specifier
    | computed argument => exact paren_notMem_name argument
  have hback : '(' ∉ loading.argument ++ [')', ';', '\n'] := by simp [hargument]
  rw [call_text_eq] at h
  obtain ⟨hu, -, hv⟩ := (List.append_cons_inj_of_notMem hfront hback).mp h
  exact ⟨hu.symm, hv.symm⟩

/-- In a clean module, each parenthesis opens a call. -/
theorem callsOpen_append (statement : Statement) {rest : List Char} (h : CallsOpen rest) :
    CallsOpen (statement.text ++ rest) := by
  intro u v hsplit
  rcases cons_split hsplit.symm with ⟨v', htext, -⟩ | ⟨u', rfl, hrest⟩
  · cases statement with
    | static form specifier attributes =>
      exact absurd (htext ▸ by simp) (paren_notMem_static form specifier attributes)
    | call bound loading => exact (eq_of_call_text htext).1 ▸ opensCall_call bound loading
  · obtain ⟨body, hbody⟩ := exists_concat statement
    exact (h u' v hrest).append_left (by rw [hbody, List.getLast?_concat]; rfl)

/-- In a clean module, each parenthesis opens a call. -/
theorem callsOpen_moduleText (statements : List Statement) : CallsOpen (moduleText statements) := by
  induction statements with
  | nil =>
    intro u v hsplit
    exact absurd hsplit (by simp [moduleText])
  | cons statement rest ih => exact callsOpen_append statement ih

/-- What is called is fixed by the text up to the parenthesis. -/
theorem eq_of_callee {bound : Name} {loading : Call} {left : List Char} {w : String}
    (hw : w ∈ functionNames)
    (h : left ++ w.toList = loading.lead bound ++ loading.callee.toList) :
    left = loading.lead bound ∧ w = loading.callee := by
  have hblank : ∀ w ∈ functionNames, ' ' ∉ w.toList := by decide
  have hsuffix : ∀ v ∈ functionNames, ∀ w ∈ functionNames, w.toList <:+ v.toList → w = v := by decide
  have hshort {u v x y : List Char} (hne : ' ' ∉ v) (hlast : x.getLast? = some ' ')
      (hsplit : u ++ v = x ++ y) : ∃ z, u = x ++ z ∧ y = z ++ v := by
    rcases List.append_eq_append_iff.mp hsplit with ⟨z, rfl, rfl⟩ | ⟨z, rfl, rfl⟩
    · by_cases hz : z = []
      · exact ⟨[], by simp [hz], by simp [hz]⟩
      · rw [List.getLast?_append_of_ne_nil _ hz] at hlast
        exact absurd (List.mem_append_left y (List.mem_of_getLast? hlast)) hne
    · exact ⟨z, rfl, rfl⟩
  obtain ⟨z, rfl, hz⟩ := hshort (hblank w hw) (getLast?_lead bound loading) h
  have hsame := hsuffix _ (callee_mem loading) w hw ⟨z, hz.symm⟩
  rw [hsame, List.self_eq_append_left] at hz
  exact ⟨by rw [hz, List.append_nil], hsame⟩

section Call

variable {rule : ImportRule} {left s right rest : List Char} {gs : List (List Char)} {bound : Name}
  {loading : Call} {specifier : Literal}

/-- The rules for calls ask for one of the functions. -/
theorem mem_functionNames {kind : ImportKind} {w : String} (h : w ∈ callees kind) :
    w ∈ functionNames := by
  have hall : ∀ w ∈ callees kind, w ∈ functionNames := by cases kind <;> decide
  exact hall w h

/-- A rule for calls matches at the function of a call alone. -/
theorem exists_call_of_accepts {statement : Statement} (hrule : rule ∈ importRules)
    (ha : rule.anchored = false) (hs : rule.pattern.Accepts left s right gs)
    (htext : left ++ (s ++ right) = statement.text ++ rest)
    (hlt : left.length < statement.text.length) (hcalls : CallsOpen (statement.text ++ rest)) :
    ∃ bound loading after left', statement = .call bound loading ∧ left = loading.lead bound ∧
      loading.callee ∈ callees rule.kind ∧ s = loading.callee.toList ++ '(' :: after ∧
        after ++ right = loading.argument ++ (')' :: ';' :: '\n' :: rest) ∧
          (Pattern.all (argument rule.kind)).Accepts left' after right gs := by
  obtain ⟨w, hw, before, after, left', rfl, ⟨_, _, hbefore⟩, hargument⟩ := accepts_call hrule ha hs
  have hname := mem_functionNames hw
  have hparen : left ++ (w.toList ++ before) ++ '(' :: (after ++ right) = statement.text ++ rest := by
    simpa using htext
  have hopens := hcalls _ _ hparen.symm
  have hnone : before = [] := by
    by_contra hne
    refine not_opensCall_of_endsHidden ?_ hopens
    rw [← List.append_assoc]
    exact (endsHidden_of_accepts hbefore hne).append_left _
  subst hnone
  rw [List.append_nil] at hparen
  rcases cons_split hparen with ⟨v, hstatement, hv⟩ | ⟨u, hu, -⟩
  · cases statement with
    | static form specifier attributes =>
      exact absurd (hstatement ▸ by simp) (paren_notMem_static form specifier attributes)
    | call bound loading =>
      obtain ⟨hfront, rfl⟩ := eq_of_call_text hstatement
      obtain ⟨rfl, rfl⟩ := eq_of_callee hname hfront
      exact ⟨bound, loading, after, left', rfl, rfl, hw, rfl, by simpa using hv, hargument⟩
  · -- The name of the function would hold the end of the line of the statement.
    have hbreak : ∀ w ∈ functionNames, '\n' ∉ w.toList := by decide
    obtain ⟨body, hbody⟩ := exists_concat statement
    rcases List.append_eq_append_iff.mp hu with ⟨z, hz, hwz⟩ | ⟨z, rfl, -⟩
    · have hne : z ≠ [] := by
        rintro rfl
        rw [hz, List.append_nil] at hlt
        exact Nat.lt_irrefl _ hlt
      have hlast : z.getLast? = some '\n' := by
        rw [← List.getLast?_append_of_ne_nil left hne, ← hz, hbody, List.getLast?_concat]
      exact absurd (hwz ▸ List.mem_append_left u (List.mem_of_getLast? hlast)) (hbreak w hname)
    · rw [List.length_append] at hlt
      omega

/-- What is written of a call before the end of its line. -/
theorem newline_notMem_call (bound : Name) (loading : Call) :
    '\n' ∉ (loading.lead bound ++ loading.callee.toList) ++ '(' :: (loading.argument ++ [')', ';']) := by
  have hfront : '\n' ∉ loading.lead bound ++ loading.callee.toList := fun hmem =>
    (List.mem_append.mp hmem).elim (notMem_of_mem_lead · (by decide))
      ((callee_spec loading).1 _ · (by decide))
  have hliteral (specifier : Literal) : '\n' ∉ specifier.text := fun hmem =>
    newline_notMem_tailText specifier none (List.mem_append_left _ hmem)
  have hargument : '\n' ∉ loading.argument := by
    cases loading with
    | require specifier | load specifier | loadSource specifier => exact hliteral specifier
    | computed argument => exact fun hmem => absurd (argument.inName _ hmem) (by decide)
  simp [hargument, List.mem_append.not.mp hfront]

/-- No rule for statements matches in a call. -/
theorem not_accepts_of_call (hrule : rule ∈ importRules) (ha : rule.anchored)
    (hs : rule.pattern.Accepts left s right gs)
    (htext : left ++ (s ++ right) = (Statement.call bound loading).text ++ rest)
    (hlt : left.length < (Statement.call bound loading).text.length) : False := by
  obtain ⟨hline, indent, gap, t, rfl, hindent, -⟩ := opens_of_anchored hrule ha hs
  have hbody := newline_notMem_call bound loading
  have htext' : (Statement.call bound loading).text = (loading.lead bound ++ loading.callee.toList) ++
      '(' :: (loading.argument ++ [')', ';']) ++ ['\n'] := by
    simp [call_text_eq]
  rw [htext'] at htext hlt
  generalize hg : (loading.lead bound ++ loading.callee.toList) ++
    '(' :: (loading.argument ++ [')', ';']) = body at htext hlt hbody
  have hnone : left = [] := by
    by_contra hne
    have hlast : '\n' ∈ left := by
      rw [List.getLast?_eq_some_getLast hne] at hline
      exact beq_iff_eq.mp hline ▸ List.getLast_mem hne
    have hbegins : left <+: body := by
      refine List.prefix_of_prefix_length_le ⟨_, htext⟩ ⟨['\n'] ++ rest, by simp⟩ ?_
      rw [List.length_append, List.length_singleton] at hlt
      omega
    exact hbody (hbegins.subset hlast)
  -- At its start, the line goes on with the word before a name.
  subst hnone
  have hfront : indent ++ ((ImportRule.keyword rule.kind).toList ++ (gap ++ (t ++ right))) =
      [] ++ ("const ".toList ++ (bound.chars ++ (loading.binding ++ (loading.callee.toList ++
        '(' :: (loading.argument ++ [')', ';'])))) ++ ['\n'] ++ rest) := by
    simpa [← hg, Call.lead_eq] using htext
  obtain ⟨-, hword⟩ :=
    Text.run_unique hindent (by simp) (stops_keyword _ _) (Text.stops_cons.mpr rfl) hfront
  rcases keyword_cases rule.kind with heq | heq <;> rw [heq] at hword <;>
    cases (List.cons.inj hword).1

/-- A literal behind a parenthesis is read as it is written. -/
theorem accepts_quoted {ps : List Pattern} {after behind : List Char}
    (htext : after ++ right = specifier.text ++ behind)
    (h : (Pattern.all (quoted :: ps)).Accepts left after right gs) :
    ∃ after' left' gs', after = specifier.text ++ after' ∧ after' ++ right = behind ∧
      gs = specifier.inner :: gs' ∧ (Pattern.all ps).Accepts left' after' right gs' := by
  obtain ⟨s, after', gs, gs', rfl, rfl, hquoted, h⟩ := h
  obtain ⟨q, inner, q', rfl, hq, hq', -, hcontent, rfl⟩ := exists_of_quoted hquoted
  have hplain : ∀ c ∈ specifier.inner, inSpecifier c := fun c hc => (specifier.plain c hc).1
  have hsplit : [] ++ q :: (inner ++ q' :: (after' ++ right)) =
      [] ++ specifier.quote :: (specifier.inner ++ specifier.quote :: behind) := by
    simpa [Literal.text] using htext
  obtain ⟨-, rfl, rfl, rfl, rfl⟩ := literal_unique .nil .nil hq specifier.isQuote hcontent hplain hq'
    specifier.isQuote hsplit
  exact ⟨after', _, gs', by simp [Literal.text], rfl, rfl, h⟩

/-- A literal is no computed argument. -/
theorem not_computed_of_literal {after behind : List Char}
    (htext : after ++ right = specifier.text ++ behind)
    (h : (Pattern.all [computedArgument]).Accepts left after right gs) : False := by
  obtain ⟨s, t, _, _, rfl, rfl, hcomputed, rfl, rfl⟩ := h
  rcases hcomputed with ⟨⟨c, hc, rfl⟩, -⟩ | hcomputed
  · obtain ⟨rfl, -⟩ := List.cons.inj htext
    simp [specifier.isQuote] at hc
  · obtain ⟨s, t, _, _, rfl, rfl, ⟨⟨q, hq, rfl⟩, -⟩, body, t, _, _, rfl, rfl, ⟨hbody, -⟩, d, t, _, _, rfl, rfl,
      ⟨⟨d, hd, rfl⟩, -⟩, b, t, _, _, rfl, rfl, ⟨⟨b, hb, rfl⟩, -⟩, rfl, -⟩ := hcomputed
    obtain rfl := beq_iff_eq.mp hq
    obtain rfl := beq_iff_eq.mp hd
    obtain rfl := beq_iff_eq.mp hb
    obtain ⟨hquote, hrest⟩ : '\x60' = specifier.quote ∧
        (body ++ ['$', '\x7b']) ++ right = specifier.inner ++ specifier.quote :: behind := by
      simpa [Literal.text] using htext
    rcases List.append_eq_append_iff.mp hrest with ⟨w, hinner, -⟩ | ⟨w, hinner, hw⟩
    · exact specifier.fixed ⟨body, w, hinner.symm⟩
    · rcases List.cons_eq_append_iff.mp hw with ⟨rfl, -⟩ | ⟨w, rfl, -⟩
      · rw [List.append_nil] at hinner
        exact specifier.fixed ⟨body, [], by rw [List.append_nil, hinner]⟩
      · -- The literal would close before its substitution.
        have hmem : '\x60' ∈ body ++ ['$', '\x7b'] := by
          rw [hinner, hquote]
          exact List.mem_append_right _ List.mem_cons_self
        rcases List.mem_append.mp hmem with hmem | hmem
        · exact absurd (hbody _ hmem) (by decide)
        · exact absurd hmem (by decide)

/-- The rule that asks for the older loader. -/
theorem kind_of_require {kind : ImportKind} (h : "require" ∈ callees kind) : kind = .requireCall := by
  cases kind <;> first | rfl | exact absurd h (by decide)

/-- The rules that ask for the loader. -/
theorem kind_of_import {kind : ImportKind} (h : "import" ∈ callees kind) :
    kind = .dynamicImport ∨ kind = .dynamicExpression := by
  cases kind <;> first | exact .inl rfl | exact .inr rfl | exact absurd h (by decide)

/-- The rules that ask for the source phase. -/
theorem kind_of_source {kind : ImportKind} (h : "import.source" ∈ callees kind) :
    kind = .dynamicSource ∨ kind = .dynamicExpression := by
  cases kind <;> first | exact .inl rfl | exact .inr rfl | exact absurd h (by decide)

/-- Behind the parenthesis, no blanks and no comments stand before a literal. -/
theorem accepts_of_literal {ps : List Pattern} {after behind : List Char}
    (htext : after ++ right = specifier.text ++ behind)
    (h : (Pattern.all (blanks :: comments :: ps)).Accepts left after right gs) :
    (Pattern.all ps).Accepts left after right gs :=
  accepts_of_blanks_comments (isBlank_of_isQuote specifier.isQuote) (quote_ne specifier.isQuote rfl)
    htext h

/-- A literal argument is captured by the rule for its function. -/
theorem captures_of_literal {kind : ImportKind} {after behind : List Char}
    (htext : after ++ right = specifier.text ++ behind)
    (hkind : argument kind = [blanks, comments, quoted] ∨ kind = .dynamicExpression)
    (h : (Pattern.all (argument kind)).Accepts left after right gs) :
    kind ≠ .dynamicExpression ∧ after = specifier.text ∧ gs = [specifier.inner] := by
  have hliteral {ps : List Pattern} (heq : argument kind = blanks :: comments :: ps) :
      (Pattern.all ps).Accepts left after right gs := accepts_of_literal htext (heq ▸ h)
  rcases hkind with heq | rfl
  · obtain ⟨after', left', gs', rfl, -, rfl, rfl, rfl⟩ := accepts_quoted htext (hliteral heq)
    refine ⟨?_, List.append_nil _, rfl⟩
    rintro rfl
    cases heq
  · exact (not_computed_of_literal htext (hliteral rfl)).elim

/-- A literal argument of the older loader is captured and its call is taken to its end. -/
theorem captures_of_require {after behind : List Char}
    (htext : after ++ right = specifier.text ++ ')' :: behind)
    (h : (Pattern.all (argument .requireCall)).Accepts left after right gs) :
    after = specifier.text ++ [')'] ∧ gs = [specifier.inner] := by
  obtain ⟨after', left', gs', rfl, hclose, rfl, hrest⟩ :=
    accepts_quoted htext (accepts_of_literal htext h)
  have hmark := accepts_of_blanks_comments rfl (by decide) hclose hrest
  obtain ⟨_, _, _, _, rfl, rfl, ⟨⟨c, hc, rfl⟩, rfl⟩, rfl, rfl⟩ := hmark
  obtain rfl := beq_iff_eq.mp hc
  exact ⟨rfl, rfl⟩

/-- Of a computed argument, the first character is taken and nothing is captured. -/
theorem captures_of_computed {kind : ImportKind} {argument : Name} {after behind : List Char}
    (htext : after ++ right = argument.chars ++ behind)
    (hkind : ImportRule.argument kind = [blanks, comments, quoted] ∨ kind = .dynamicExpression)
    (h : (Pattern.all (ImportRule.argument kind)).Accepts left after right gs) :
    kind = .dynamicExpression ∧ after = argument.chars.take 1 ∧ gs = [] := by
  obtain ⟨c, chars, hchars⟩ := List.exists_cons_of_ne_nil argument.ne_nil
  have hname : inName c := argument.inName c (hchars ▸ List.mem_cons_self)
  have hslash : c ≠ '/' := by
    rintro rfl
    cases hname
  rw [hchars, List.cons_append] at htext
  have hnext {ps : List Pattern} (heq : ImportRule.argument kind = blanks :: comments :: ps) :
      (Pattern.all ps).Accepts left after right gs :=
    accepts_of_blanks_comments (isBlank_of_inName hname) hslash htext (heq ▸ h)
  have hquote (hq : isQuote c) : False := by
    rw [inName_of_isQuote hq] at hname
    cases hname
  rcases hkind with heq | rfl
  · obtain ⟨_, _, _, _, rfl, rfl, ⟨_, _, _, _, rfl, rfl, ⟨⟨q, hq, rfl⟩, -⟩, -⟩, -⟩ := hnext heq
    exact (hquote ((List.cons.inj htext).1 ▸ hq)).elim
  · obtain ⟨_, _, _, _, rfl, rfl, hcomputed, rfl, rfl⟩ := hnext rfl
    rcases hcomputed with ⟨⟨d, hd, rfl⟩, rfl⟩ | ⟨_, _, _, _, rfl, rfl, ⟨⟨q, hq, rfl⟩, -⟩, -⟩
    · obtain ⟨rfl, -⟩ := List.cons.inj htext
      exact ⟨rfl, by rw [hchars]; rfl, rfl⟩
    · obtain ⟨rfl, -⟩ := List.cons.inj htext
      exact (hquote (by rw [beq_iff_eq.mp hq]; rfl)).elim

/-- A rule for calls that asks for the function of a call and accepts its argument is the rule of
its kind; it takes what belongs to the call and captures the specifier. -/
theorem captures_of_call {kind : ImportKind} {after : List Char} (bound : Name)
    (hcallee : loading.callee ∈ callees kind)
    (htext : after ++ right = loading.argument ++ (')' :: ';' :: '\n' :: rest))
    (h : (Pattern.all (argument kind)).Accepts left after right gs) :
    kind = (Statement.call bound loading).kind ∧ after = loading.taken ∧
      gs.head?.getD [] = (Statement.call bound loading).specifier := by
  cases loading with
  | require specifier =>
    obtain rfl := kind_of_require hcallee
    obtain ⟨rfl, rfl⟩ := captures_of_require htext h
    exact ⟨rfl, rfl, rfl⟩
  | load specifier =>
    have hkind := kind_of_import hcallee
    obtain ⟨hne, rfl, rfl⟩ := captures_of_literal htext (hkind.imp_left fun heq => heq ▸ rfl) h
    exact ⟨hkind.resolve_right hne, rfl, rfl⟩
  | loadSource specifier =>
    have hkind := kind_of_source hcallee
    obtain ⟨hne, rfl, rfl⟩ := captures_of_literal htext (hkind.imp_left fun heq => heq ▸ rfl) h
    exact ⟨hkind.resolve_right hne, rfl, rfl⟩
  | computed argument =>
    have hkind := kind_of_import hcallee
    obtain ⟨rfl, rfl, rfl⟩ := captures_of_computed htext (hkind.imp_left fun heq => heq ▸ rfl) h
    exact ⟨rfl, rfl, rfl⟩

end Call

/-- What a match of a rule that begins in a statement has to do with the statement. -/
structure Fits (statement : Statement) (rule : ImportRule) (left s : List Char)
    (gs : List (List Char)) : Prop where
  left_eq : left = statement.lead
  rank_le : rank statement.kind ≤ rank rule.kind
  length_le : (left ++ s).length ≤ statement.text.length
  own : rule.kind = statement.kind →
    s = statement.construct ∧ gs.head?.getD [] = statement.specifier

/-- What is taken of a call ends before its line does. -/
theorem length_taken_le (loading : Call) :
    loading.taken.length ≤ (loading.argument ++ [')', ';', '\n']).length := by
  cases loading with
  | require specifier | load specifier | loadSource specifier => simp [Call.taken, Call.argument]
  | computed argument =>
    have hle := List.length_take_le' 1 argument.chars
    rw [Call.taken, Call.argument, List.length_append]
    omega

/-- The construct in a statement with a keyword. -/
theorem construct_static (form : Form) (specifier : Literal) (attributes : Option Attributes) :
    (Statement.static form specifier attributes).construct = form.head ++ (specifier.text ++
      if (Statement.static form specifier attributes).kind = .importAttributes then
        attributesText attributes
      else []) := by
  cases form with
  | bindings clause =>
    cases attributes with
    | none =>
      rcases clause with (bound | names | names) | ⟨bound, names⟩ <;> rfl
    | some attributes => rfl
  | _ => exact (congrArg _ (List.append_nil _)).symm

/-- A match that begins in a statement of a module fits it. -/
theorem fits_of_accepts {statement : Statement} {rule : ImportRule} {left s right rest : List Char}
    {gs : List (List Char)} (hrule : rule ∈ importRules)
    (hs : rule.pattern.Accepts left s right gs)
    (htext : left ++ (s ++ right) = statement.text ++ rest)
    (hlt : left.length < statement.text.length) (hcalls : CallsOpen (statement.text ++ rest)) :
    Fits statement rule left s gs := by
  cases ha : rule.anchored with
  | true =>
    cases statement with
    | static form specifier attributes =>
      obtain rfl := eq_nil_of_static hrule ha hs htext hlt
      have hsplit : s ++ right =
          form.head ++ (specifier.text ++ (attributesText attributes ++ (';' :: '\n' :: rest))) := by
        simpa [Statement.text] using htext
      obtain ⟨hkeyword, hopens⟩ := opens_of_static hrule ha hs hsplit
      obtain ⟨rfl, after, left', rfl, hafter, htail⟩ := literal_of_static hrule ha hs hsplit
      have hclause : rule.kind = .importAttributes → attributes ≠ none ∧ after = attributesText attributes :=
        fun heq => after_of_attributeClause (if_pos heq ▸ htail) hafter
      have hplain : rule.kind ≠ .importAttributes → after = [] := fun hne => (if_neg hne ▸ htail).1
      refine ⟨rfl, rank_le_of_opens hkeyword hopens fun heq => (hclause heq).1, ?_, fun hown => ⟨?_, rfl⟩⟩
      · have hshort : after.length ≤ (attributesText attributes).length := by
          by_cases heq : rule.kind = .importAttributes
          · rw [(hclause heq).2]
          · rw [hplain heq]
            exact Nat.zero_le _
        simp only [Statement.text, List.nil_append, List.length_append]
        omega
      · rw [construct_static, ← hown]
        split
        · next heq => rw [(hclause heq).2]
        · next hne => rw [hplain hne]
    | call bound loading => exact (not_accepts_of_call hrule ha hs htext hlt).elim
  | false =>
    obtain ⟨bound, loading, after, left', rfl, rfl, hcallee, rfl, hafter, hargument⟩ :=
      exists_call_of_accepts hrule ha hs htext hlt hcalls
    obtain ⟨hkind, rfl, hgroups⟩ := captures_of_call bound hcallee hafter hargument
    refine ⟨rfl, (congrArg rank hkind).ge, ?_, fun _ => ⟨rfl, hgroups⟩⟩
    have hle := length_taken_le loading
    simp only [Statement.text, List.length_append, List.length_cons] at hle ⊢
    omega

end ImportAtlas.Clean
