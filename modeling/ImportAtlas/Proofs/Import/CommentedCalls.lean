import Mathlib.Data.List.Infix
import ImportAtlas.Proofs.Import.CallMatches

/-!
# Calls with comments before their argument

A call with blanks and comments before its argument loads its specifier if the rules get past all of
the comments. The loader does so only if no comment along a line holds what looks like the beginning
of a computed argument: the rule for computed arguments comes first, and goes on from within such a
comment.
-/

namespace ImportAtlas.Clean

open Pattern ImportRule

open scoped Text.AlongRun

/-- Whether a text begins as a computed argument does. -/
def beginsComputed : List Char → Bool
  | [] => false
  | c :: rest => !isQuote c && !Text.isBlank c && c != '/' ||
      c == '\x60' && decide (['$', '\x7b'] <:+: rest.takeWhile (· != '\x60'))

/-- Whether a comment along a line has a place where a computed argument seems to begin. -/
def Filler.showsArgument : Filler → List Char → Bool
  | .line body _, behind => body.tails.any fun rest => beginsComputed (rest ++ '\n' :: behind)
  | _, _ => false

/-- Whether fillers have a place where a computed argument seems to begin, in a comment along a line
that stands behind plain fillers. -/
def showsArgument : List Filler → List Char → Bool
  | [], _ => false
  | f :: fillers, behind => f.showsArgument (fillerText fillers ++ behind) ||
      f.isPlain && showsArgument fillers behind

section Computed

variable {fillers after : List Filler} {behind left s t right : List Char}

/-- What begins as a computed argument does is taken for one. -/
theorem exists_takes_computed (h : beginsComputed t) :
    ∃ s right, t = s ++ right ∧ Takes computedArgument s [] := by
  cases t with
  | nil => cases h
  | cons c rest =>
    rw [beginsComputed, Bool.or_eq_true] at h
    rcases h with hchar | hsubstitution
    · exact ⟨[c], rest, rfl, Takes.inl fun _ _ => ⟨⟨c, hchar, rfl⟩, rfl⟩⟩
    · rw [Bool.and_eq_true, beq_iff_eq, decide_eq_true_eq] at hsubstitution
      obtain ⟨rfl, body, w, hrun⟩ := hsubstitution
      have hbody : ∀ c ∈ body, c != '\x60' := by
        intro c hc
        have hmem : c ∈ rest.takeWhile (· != '\x60') := hrun ▸ by simp [hc]
        exact @List.mem_takeWhile_imp _ (· != '\x60') _ _ hmem
      have hmany : Takes (many (· != '\x60')) body [] := fun _ _ => ⟨hbody, rfl⟩
      refine ⟨'\x60' :: (body ++ ['$', '\x7b']), w ++ rest.dropWhile (· != '\x60'), ?_, ?_⟩
      · have hrest := List.takeWhile_append_dropWhile (p := (· != '\x60')) (l := rest)
        rw [← hrun] at hrest
        simpa using congrArg ('\x60' :: ·) hrest.symm
      · exact Takes.inr ((takes_mark '\x60').cons (hmany.cons ((takes_mark '$').cons
          (takes_mark '\x7b').single)))

/-- What is accepted as the beginning of a computed argument begins as one does. -/
theorem beginsComputed_of_accepts {gs : List (List Char)} (hs : computedArgument.Accepts left s right gs) :
    beginsComputed (s ++ right) := by
  rcases hs with ⟨⟨c, hc, rfl⟩, -⟩ | h
  · have hchar : (!isQuote c && !Text.isBlank c && c != '/') = true := hc
    rw [List.singleton_append, beginsComputed, hchar, Bool.true_or]
  · obtain ⟨t, rfl, body, u, _, _, rfl, -, ⟨hbody, -⟩, hdollar⟩ := accepts_all_mark.mp h
    obtain ⟨u, rfl, hbrace⟩ := accepts_all_mark.mp hdollar
    obtain ⟨u, rfl, rfl, -⟩ := accepts_all_mark.mp hbrace
    have hrun : (body ++ ['$', '\x7b'] ++ right).takeWhile (· != '\x60') =
        body ++ (['$', '\x7b'] ++ right.takeWhile (· != '\x60')) := by
      rw [List.append_assoc, List.takeWhile_append_of_pos hbody]
      rfl
    have hsubstitution : ['$', '\x7b'] <:+:
        (body ++ ['$', '\x7b'] ++ right).takeWhile (· != '\x60') := by
      rw [hrun, ← List.append_assoc]
      exact ⟨body, _, rfl⟩
    rw [List.cons_append, beginsComputed, decide_eq_true hsubstitution]
    simp

/-- Where a computed argument seems to begin in fillers. -/
theorem showsArgument_iff : showsArgument fillers behind ↔
    ∃ done rest after, ReachesLine fillers (done ++ rest) after ∧
      beginsComputed (rest ++ '\n' :: (fillerText after ++ behind)) := by
  induction fillers with
  | nil =>
    rw [showsArgument]
    refine ⟨fun h => (Bool.false_ne_true h).elim, ?_⟩
    rintro ⟨done, rest, after, ⟨before, unbroken, hsplit, -⟩, -⟩
    simp at hsplit
  | cons f fillers ih =>
    rw [showsArgument, Bool.or_eq_true, Bool.and_eq_true, ih]
    constructor
    · rintro (hf | ⟨hplain, done, rest, after, ⟨before, unbroken, rfl, hbefore⟩, hbegins⟩)
      · cases f with
        | blank | block => cases hf
        | line body unbroken =>
          obtain ⟨rest, hrest, hbegins⟩ := List.any_eq_true.mp hf
          obtain ⟨done, rfl⟩ := (List.mem_tails _ _).mp hrest
          exact ⟨done, rest, fillers, ⟨[], unbroken, rfl, rfl⟩, hbegins⟩
      · exact ⟨done, rest, after, ⟨f :: before, unbroken, rfl, by simp [hplain, hbefore]⟩, hbegins⟩
    · rintro ⟨done, rest, after, ⟨before, unbroken, hsplit, hbefore⟩, hbegins⟩
      cases before with
      | nil =>
        obtain ⟨rfl, rfl⟩ := List.cons.inj hsplit
        exact .inl (List.any_eq_true.mpr ⟨rest, (List.mem_tails _ _).mpr ⟨done, rfl⟩, hbegins⟩)
      | cons g before =>
        obtain ⟨rfl, rfl⟩ := List.cons.inj hsplit
        obtain ⟨hplain, hbefore⟩ := Bool.and_eq_true_iff.mp hbefore
        exact .inr ⟨hplain, done, rest, after, ⟨before, unbroken, rfl, hbefore⟩, hbegins⟩

/-- A comment along a line that shows no argument holds no star, if it stands behind plain fillers. -/
theorem star_notMem_of_not_showsArgument (h : ¬ showsArgument fillers behind) {line : List Char}
    (hline : ReachesLine fillers line after) : '*' ∉ line := by
  intro hmem
  obtain ⟨done, rest, rfl⟩ := List.append_of_mem hmem
  exact h (showsArgument_iff.mpr ⟨done, '*' :: rest, after, hline, rfl⟩)

end Computed

/-- The rule for calls of the loader with a computed argument. -/
def computedRule : ImportRule where
  kind := .dynamicExpression
  skip := true
  anchored := false
  pattern := all [wordEdge, word "import", optional (word ".source"), openCall, computedArgument]

/-- The rule for calls of a function that loads a module. -/
def Loader.rule : Loader → ImportRule
  | .load =>
    { kind := .dynamicImport, anchored := false,
      pattern := all [wordEdge, word "import", openCall, quoted] }
  | .require =>
    { kind := .requireCall, anchored := false,
      pattern := all [wordEdge, word "require", blanks, mark '(', blanks, comments, quoted, blanks,
        comments, mark ')'] }

/-- The rule for computed arguments is one of the rules. -/
theorem computedRule_mem : computedRule ∈ importRules :=
  List.mem_of_getElem? (i := 2) rfl

/-- The rules for functions that load a module are among the rules. -/
theorem rule_mem (loader : Loader) : loader.rule ∈ importRules := by
  cases loader with
  | load => exact List.mem_of_getElem? (i := 11) rfl
  | require => exact List.mem_of_getElem? (i := 12) rfl

section Found

variable {loader : Loader} {fillers : List Filler} {specifier : Literal} {tail : List Char}
  {rule : ImportRule} {m : Pattern.Match} {left right behind : List Char}

/-- A match at the start of a text is visible. -/
theorem visible_of_start {text : List Char} (hm : m.start = 0) : ¬ rule.isHidden text m := by
  rw [ImportRule.isHidden, hm, show inCommentOrLiteral text 0 = false from rfl, Bool.and_false]
  exact Bool.false_ne_true

/-- A visible match in a call of the loader is one of its rule or of the rule for computed
arguments. -/
theorem kind_of_visible (htail : StaysQuiet tail) (hrule : rule ∈ importRules)
    (hm : m ∈ rule.pattern.findAll (callText loader fillers specifier tail))
    (hvisible : ¬ rule.isHidden (callText loader fillers specifier tail) m) :
    m.start = 0 ∧ (rule.kind = loader.rule.kind ∨ loader = .load ∧ rule.kind = .dynamicExpression) := by
  obtain ⟨hstart, hcallee, -⟩ := argument_of_mem_findAll htail hrule hm hvisible
  refine ⟨hstart, ?_⟩
  cases loader with
  | load => exact (kind_of_import hcallee).imp_right fun hkind => ⟨rfl, hkind⟩
  | require => exact .inl (kind_of_require hcallee)

/-- A word begins where a call does at the start of a text. -/
theorem edge_start (loader : Loader) (rest : List Char) :
    wordBeside ([] : List Char).getLast? != wordBeside (loader.name.toList ++ rest).head? := by
  have hne : loader.name.toList ≠ [] := by cases loader <;> decide
  rw [List.head?_append_of_ne_nil _ hne]
  cases loader <;> decide

/-- At the start of a text, the name of a function is accepted before what is accepted behind it. -/
theorem accepts_at_start (loader : Loader) {ps : List Pattern} {s : List Char} {gs : List (List Char)}
    (h : (all ps).Accepts ([] ++ [] ++ loader.name.toList) s right gs) :
    (all (wordEdge :: word loader.name :: ps)).Accepts [] (loader.name.toList ++ s) right gs := by
  have hedge : wordBeside ([] : List Char).getLast? !=
      wordBeside ((loader.name.toList ++ s) ++ right).head? := by
    rw [List.append_assoc]
    exact edge_start loader _
  exact ⟨[], _, [], gs, rfl, rfl, ⟨hedge, rfl, rfl⟩, loader.name.toList, s, [], gs, rfl, rfl,
    takes_word _ _ _, h⟩

/-- Where a computed argument seems to begin in a comment, the rule for computed arguments matches. -/
theorem exists_computed_match (h : showsArgument fillers (argumentText specifier tail)) :
    ∃ m ∈ computedRule.pattern.findAll (callText .load fillers specifier tail), m.start = 0 := by
  obtain ⟨done, rest, after, ⟨before, unbroken, rfl, hplain⟩, hbegins⟩ := showsArgument_iff.mp h
  obtain ⟨t, right, hsplit, ht⟩ := exists_takes_computed hbegins
  have hdone : '\n' ∉ done := fun hmem => unbroken (List.mem_append_left _ hmem)
  have hopen (left : List Char) : (all [openCall, computedArgument]).Accepts left
      ('(' :: (fillerText before ++ ('/' :: '/' :: done ++ t))) right [] :=
    accepts_openCall_of_argument (accepts_into_line hplain hdone fun left => ht.single left right)
  have hcall : computedRule.pattern.Accepts []
      (Loader.load.name.toList ++ '(' :: (fillerText before ++ ('/' :: '/' :: done ++ t))) right [] :=
    accepts_at_start .load ⟨[], _, [], [], rfl, rfl, .inr ⟨rfl, rfl⟩, hopen _⟩
  have htext : callText .load (before ++ .line (done ++ rest) unbroken :: after) specifier tail =
      (Loader.load.name.toList ++ '(' :: (fillerText before ++ ('/' :: '/' :: done ++ t))) ++ right := by
    have hline : (Filler.line (done ++ rest) unbroken).text ++
        (fillerText after ++ argumentText specifier tail) = '/' :: '/' :: done ++ (t ++ right) := by
      rw [← hsplit]
      simp [Filler.text]
    rw [callText, fillerText_append, fillerText_cons, List.append_assoc, List.append_assoc, hline]
    simp
  obtain ⟨m, hm, hle, -⟩ := exists_mem_findAll
    (advances_of_mem_importRules computedRule computedRule_mem) (isSome_matchAfter hcall)
  exact ⟨m, htext ▸ hm, Nat.le_zero.mp hle⟩

/-- A literal is preferred as it is, and what is between its quotes is captured. -/
theorem prefers_quoted (specifier : Literal) (left right : List Char) :
    Prefers quoted left specifier.text right [((left ++ [specifier.quote]).length,
      (left ++ [specifier.quote] ++ specifier.inner).length)] := by
  have hquote {left right : List Char} : Prefers (one isQuote) left [specifier.quote] right [] :=
    prefers_one specifier.isQuote
  have hstop : Text.Stops inSpecifier ([specifier.quote] ++ right) :=
    Text.stops_cons.mpr (by simp [inSpecifier, specifier.isQuote])
  have hinner : Prefers (Pattern.some inSpecifier) (left ++ [specifier.quote]) specifier.inner
      ([specifier.quote] ++ right) [] :=
    prefers_some specifier.ne_nil (fun c hc => (specifier.plain c hc).1) hstop
  exact hquote.cons (hinner.capture.cons hquote.single)

/-- At the start of a text, the name of a function is preferred before what is preferred behind it. -/
theorem prefers_at_start (loader : Loader) {ps : List Pattern} {s : List Char} {new : List (ℕ × ℕ)}
    (h : Prefers (all ps) loader.name.toList s right new) :
    Prefers (all (wordEdge :: word loader.name :: ps)) [] (loader.name.toList ++ s) right new := by
  have hedge : Prefers wordEdge [] [] ((loader.name.toList ++ s) ++ right) [] := by
    refine prefers_wordEdge ?_
    rw [List.append_assoc]
    exact edge_start loader _
  exact hedge.cons ((prefers_text loader.name.toList).cons h)

/-- What the rule for a function that loads a module takes of a call. -/
def takenText (loader : Loader) (fillers : List Filler) (specifier : Literal) : List Char :=
  loader.name.toList ++ '(' :: (fillerText fillers ++ (specifier.text ++ match loader with
    | .load => []
    | .require => [')']))

/-- The rule for a function that loads a module prefers to read all of the fillers before the literal,
if they are plain, and captures what is between its quotes. -/
theorem prefers_call (loader : Loader) (hplain : fillers.all Filler.isPlain) :
    ∃ right before, callText loader fillers specifier tail = takenText loader fillers specifier ++ right ∧
      callText loader fillers specifier tail = before ++ (specifier.inner ++ specifier.quote :: ')' :: tail) ∧
        Prefers loader.rule.pattern [] (takenText loader fillers specifier) right
          [(before.length, (before ++ specifier.inner).length)] := by
  have hparen {left right : List Char} : Prefers (mark '(') left ['('] right [] :=
    prefers_one (beq_self_eq_true '(')
  have hclose {left right : List Char} : Prefers (mark ')') left [')'] right [] :=
    prefers_one (beq_self_eq_true ')')
  have hblank : Text.isBlank specifier.quote = false := isBlank_of_isQuote specifier.isQuote
  have hslash : specifier.quote ≠ '/' := quote_ne specifier.isQuote rfl
  have hbefore : callText loader fillers specifier tail =
      (loader.name.toList ++ ['('] ++ fillerText fillers ++ [specifier.quote]) ++
        (specifier.inner ++ specifier.quote :: ')' :: tail) := by
    simp [callText, argumentText, Literal.text]
  cases loader with
  | load =>
    refine ⟨')' :: tail, _, by simp [callText, takenText, argumentText], hbefore, ?_⟩
    have hopen : Prefers openCall Loader.load.name.toList (['('] ++ (fillerText fillers ++ []))
        (specifier.text ++ ')' :: tail) [] :=
      prefers_no_fillers rfl (by decide) rfl
        (hparen.cons (prefers_fillers hblank hslash hplain rfl prefers_empty))
    have hcall : Prefers Loader.load.rule.pattern [] _ _ _ := prefers_at_start .load
      (hopen.cons (prefers_quoted specifier _ (')' :: tail)).single)
    simpa [takenText] using hcall
  | require =>
    refine ⟨tail, _, by simp [callText, takenText, argumentText], hbefore, ?_⟩
    have hend {left : List Char} : Prefers (all [blanks, comments, mark ')']) left [')'] tail [] :=
      prefers_no_fillers rfl (by decide) rfl hclose.single
    have hliteral := (prefers_quoted specifier
      (Loader.require.name.toList ++ [] ++ ['('] ++ fillerText fillers) ([')'] ++ tail)).cons hend
    have hnone {rest : List Char} : Prefers blanks Loader.require.name.toList [] ('(' :: rest) [] :=
      prefers_many (by simp) (Text.stops_cons.mpr rfl)
    have hcall : Prefers Loader.require.rule.pattern [] _ _ _ := prefers_at_start .require
      (hnone.cons (hparen.cons (prefers_fillers hblank hslash hplain rfl hliteral)))
    simpa [takenText] using hcall

/-- The match of the rule for a function that loads a module, if all fillers are plain. -/
theorem matchAfter_call (loader : Loader) (hplain : fillers.all Filler.isPlain) :
    loader.rule.pattern.matchAfter [] (callText loader fillers specifier tail) =
      Option.some ⟨0, (takenText loader fillers specifier).length, [specifier.inner]⟩ := by
  obtain ⟨right, before, htaken, hbefore, hprefers⟩ :=
    @prefers_call fillers specifier tail loader hplain
  have hmatch := matchAfter_of_prefers hprefers
  rw [← htaken] at hmatch
  have hinner := between_append before specifier.inner (specifier.quote :: ')' :: tail)
  rw [← hbefore] at hinner
  rw [hmatch, List.map_singleton]
  exact congrArg (fun inner => Option.some (Match.mk 0 _ [inner])) hinner

/-- Where a computed argument seems to begin in a comment, the call is found as one with a computed
argument, and nothing else is found. -/
theorem findImports_computed (htail : StaysQuiet tail)
    (h : showsArgument fillers (argumentText specifier tail)) :
    ∃ m, findImports (callText .load fillers specifier tail) = [.ofMatch computedRule m] := by
  obtain ⟨m, hm, hstart⟩ := exists_computed_match h
  refine ⟨m, findImports_eq_singleton computedRule_mem hm (visible_of_start hstart) ?_⟩
  intro rule hrule m' hm' hvisible
  obtain ⟨hstart', hkind⟩ := kind_of_visible htail hrule hm' hvisible
  refine ⟨hstart'.trans hstart.symm, ?_⟩
  rcases hkind with hkind | ⟨-, hkind⟩ <;> rw [hkind] <;> decide

/-- At the border of a filler no computed argument begins. -/
theorem not_beginsComputed_border (after : List Filler) :
    ¬ beginsComputed (fillerText after ++ argumentText specifier tail) := by
  intro h
  cases after with
  | nil =>
    obtain ⟨t, right, hsplit, ht⟩ := exists_takes_computed h
    have hliteral : t ++ right = specifier.text ++ ')' :: tail := hsplit.symm
    exact not_computed_of_literal hliteral (ht.single [] right)
  | cons f after =>
    obtain ⟨c, t, hc, hkind⟩ := exists_cons_of_filler f
    have hback : c ≠ '\x60' := by
      rintro rfl
      exact absurd (isQuote_of_isBlank_or hkind) (by decide)
    rw [fillerText_cons, hc, List.append_assoc, List.cons_append, beginsComputed] at h
    rcases hkind with hblank | rfl
    · simp [hblank, hback] at h
    · simp at h

/-- If no computed argument seems to begin in a comment, the rule for computed arguments accepts
nothing behind the parenthesis. -/
theorem not_accepts_computed {after : List Char} {gs : List (List Char)}
    (h : ¬ showsArgument fillers (argumentText specifier tail))
    (htext : after ++ right = fillerText fillers ++ argumentText specifier tail)
    (hs : (all (argument .dynamicExpression)).Accepts left after right gs) : False := by
  obtain ⟨t, left', hreached, hargument⟩ := reached_of_accepts beginsWith_argumentText
    (fun _ _ => star_notMem_of_not_showsArgument h) htext hs
  obtain ⟨t, u, _, _, rfl, -, hcomputed, rfl, -⟩ := hargument
  have hbegins := beginsComputed_of_accepts hcomputed
  rw [← List.append_assoc] at hbegins
  generalize t ++ [] ++ right = rest at hreached hbegins
  cases hreached with
  | border => exact not_beginsComputed_border _ hbegins
  | inLine hline => exact h (showsArgument_iff.mpr ⟨_, _, _, hline, hbegins⟩)

/-- If all fillers are plain, and no computed argument seems to begin in a comment of a call of the
loader, the call is found with its specifier, and nothing else is found. -/
theorem findImports_call (htail : StaysQuiet tail) (hplain : fillers.all Filler.isPlain)
    (hshows : loader = .load → ¬ showsArgument fillers (argumentText specifier tail)) :
    findImports (callText loader fillers specifier tail) = [⟨String.ofList specifier.inner,
      loader.rule.kind, 0, (takenText loader fillers specifier).length, false⟩] := by
  have hskip : loader.rule.skip = false := by cases loader <;> rfl
  rw [← hskip]
  refine findImports_eq_singleton (rule_mem loader)
    (mem_findAll_of_matchAfter (matchAfter_call loader hplain)) (visible_of_start rfl) ?_
  intro rule hrule m hm hvisible
  obtain ⟨hstart, hkind⟩ := kind_of_visible htail hrule hm hvisible
  refine ⟨hstart, ?_⟩
  rcases hkind with hkind | ⟨rfl, hkind⟩
  · exact (congrArg rank hkind).ge
  · obtain ⟨-, -, after, right, left', htext, hargument⟩ :=
      argument_of_mem_findAll htail hrule hm hvisible
    rw [hkind] at hargument
    exact (not_accepts_computed (hshows rfl) htext hargument).elim

/-- Where a quote is reached behind blanks and comments, all fillers are plain, or the quote stands in
a comment along a line. -/
theorem isPlain_or_inLine {ps : List Pattern} {after : List Char} {gs : List (List Char)}
    (hstar : ∀ line after, ReachesLine fillers line after → '*' ∉ line)
    (htext : after ++ right = fillerText fillers ++ argumentText specifier tail)
    (hs : (all (blanks :: comments :: quoted :: ps)).Accepts left after right gs) :
    fillers.all Filler.isPlain ∨ ∃ done q rest after' inner gs' t,
      ReachesLine fillers (done ++ q :: rest) after' ∧ isQuote q ∧ gs = inner :: gs' ∧
        rest ++ '\n' :: (fillerText after' ++ argumentText specifier tail) = inner ++ t := by
  obtain ⟨t, left', hreached, hargument⟩ :=
    reached_of_accepts beginsWith_argumentText hstar htext hs
  obtain ⟨_, u, _, gs', rfl, rfl, hquoted, -⟩ := hargument
  obtain ⟨q, inner, q', rfl, hq, -, -, -, rfl⟩ := exists_of_quoted hquoted
  generalize hrest : q :: (inner ++ [q']) ++ u ++ right = rest at hreached
  cases hreached with
  | @border before after' hsplit hplain =>
    have hborder : beginsWith isQuote (fillerText after' ++ argumentText specifier tail) := by
      rw [← hrest]
      exact hq
    rw [eq_nil_of_beginsWith_quote hborder, List.append_nil] at hsplit
    exact .inl (hsplit ▸ hplain)
  | @inLine done rest after' hline =>
    cases rest with
    | nil =>
      obtain ⟨rfl, -⟩ := List.cons.inj hrest
      cases hq
    | cons d rest =>
      obtain ⟨rfl, hinner⟩ := List.cons.inj hrest
      exact .inr ⟨done, q, rest, after', inner, gs', q' :: (u ++ right), hline, hq, rfl,
        by simpa using hinner.symm⟩

/-- What is extracted from a call comes from a visible match of the rule for its function. -/
theorem exists_match_of_extracted (htail : StaysQuiet tail) {specifiers : List String}
    {chars : List Char}
    (h : (extractImports (callText loader fillers specifier tail)).map ImportMatch.specifier =
      String.ofList chars :: specifiers) :
    ¬ (loader = .load ∧ showsArgument fillers (argumentText specifier tail)) ∧
      ∃ after right left' gs, after ++ right = fillerText fillers ++ argumentText specifier tail ∧
        (all (argument loader.rule.kind)).Accepts left' after right gs ∧ gs.head?.getD [] = chars := by
  obtain ⟨item, hitem, hspecifier⟩ : ∃ item ∈ extractImports (callText loader fillers specifier tail),
      item.specifier = String.ofList chars :=
    List.mem_map.mp (h ▸ List.mem_cons_self)
  obtain ⟨hfound, hkept⟩ := List.mem_filter.mp hitem
  have hskip : item.skip = false := Bool.not_eq_true' _ ▸ (Bool.and_eq_true_iff.mp hkept).1
  refine ⟨?_, ?_⟩
  · rintro ⟨rfl, hshows⟩
    obtain ⟨m, hm⟩ := findImports_computed htail hshows
    rw [hm] at hfound
    rw [List.mem_singleton.mp hfound] at hskip
    cases hskip
  · obtain ⟨rule, hrule, m, hm, rfl, hvisible⟩ := (selected_findImports _).visible item hfound
    obtain ⟨-, hkind⟩ := kind_of_visible htail hrule hm hvisible
    obtain ⟨-, -, after, right, left', htext, hargument⟩ :=
      argument_of_mem_findAll htail hrule hm hvisible
    have hown : rule.kind = loader.rule.kind := by
      refine hkind.resolve_right fun hcomputed => ?_
      exact kind_ne_of_skip rule hrule hskip hcomputed.2
    rw [hown] at hargument
    exact ⟨after, right, left', m.groups, htext, hargument, String.ofList_injective hspecifier⟩

/-- Of a plain call that shows no computed argument, the specifier is extracted. -/
theorem extractImports_of_isPlain (htail : StaysQuiet tail) (hplain : fillers.all Filler.isPlain)
    (hshows : loader = .load → ¬ showsArgument fillers (argumentText specifier tail)) (external : Bool)
    (hkept : external || isLocalSpecifier specifier.inner) :
    (extractImports (callText loader fillers specifier tail) external).map ImportMatch.specifier =
      [String.ofList specifier.inner] := by
  rw [extractImports, findImports_call htail hplain hshows, List.filter_cons_of_pos]
  · rfl
  · simpa using hkept

/-- A call of the loader of which a relative specifier is extracted has plain fillers. -/
theorem isPlain_of_extracted_load (htail : StaysQuiet tail) (hlocal : "./".toList <+: specifier.inner)
    (h : (extractImports (callText .load fillers specifier tail)).map ImportMatch.specifier =
      [String.ofList specifier.inner]) :
    fillers.all Filler.isPlain ∧ ¬ showsArgument fillers (argumentText specifier tail) := by
  obtain ⟨hshows, after, right, left', gs, htext, hargument, hgs⟩ := exists_match_of_extracted htail h
  have hhidden : ¬ showsArgument fillers (argumentText specifier tail) := fun hshow => hshows ⟨rfl, hshow⟩
  refine ⟨?_, hhidden⟩
  rcases isPlain_or_inLine (fun _ _ => star_notMem_of_not_showsArgument hhidden) htext hargument with
    hplain | ⟨done, q, rest, after', inner, gs', t, hline, -, rfl, hrest⟩
  · exact hplain
  · -- The dot of the specifier would stand in the comment, where it begins a computed argument.
    obtain ⟨w, hw⟩ := hlocal
    have hinner : inner = '.' :: '/' :: w := hgs.trans hw.symm
    rw [hinner] at hrest
    cases rest with
    | nil => exact absurd (List.cons.inj hrest).1 (by decide)
    | cons c rest =>
      obtain ⟨rfl, -⟩ := List.cons.inj hrest
      have hline' : ReachesLine fillers ((done ++ [q]) ++ '.' :: rest) after' := by
        rwa [List.append_assoc]
      exact absurd (showsArgument_iff.mpr ⟨_, _, _, hline', rfl⟩) hhidden

/-- A call of the older loader of which a specifier is extracted has plain fillers, if no comment
along a line holds a quote or a star. -/
theorem isPlain_of_extracted_require (htail : StaysQuiet tail)
    (hlines : ∀ body unbroken, .line body unbroken ∈ fillers → ∀ c ∈ body, ¬ isQuote c ∧ c ≠ '*')
    (h : (extractImports (callText .require fillers specifier tail)).map ImportMatch.specifier =
      [String.ofList specifier.inner]) : fillers.all Filler.isPlain := by
  obtain ⟨-, after, right, left', gs, htext, hargument, -⟩ := exists_match_of_extracted htail h
  have hline {line : List Char} {after : List Filler} (hreached : ReachesLine fillers line after) :
      ∀ c ∈ line, ¬ isQuote c ∧ c ≠ '*' := by
    obtain ⟨before, unbroken, rfl, -⟩ := hreached
    exact hlines line unbroken (List.mem_append_right _ List.mem_cons_self)
  rcases isPlain_or_inLine (fun _ _ hreached hmem => (hline hreached '*' hmem).2 rfl) htext hargument with
    hplain | ⟨done, q, rest, after', inner, gs', t, hreached, hq, -⟩
  · exact hplain
  · exact absurd hq (hline hreached q (by simp)).1

/-- A relative specifier begins with a mark of the project. -/
theorem isLocalSpecifier_of_relative {chars : List Char} (h : "./".toList <+: chars) :
    isLocalSpecifier chars :=
  List.any_eq_true.mpr ⟨"./", by simp [localBeginnings], List.isPrefixOf_iff_prefix.mpr h⟩

end Found

/-- From a call of the loader with blanks and comments before a relative specifier, exactly the
specifier is extracted if and only if no comment between slash and star has a star in its body and no
computed argument seems to begin in a comment along a line. From a call of the older loader it is
extracted if no comment between slash and star has a star in its body, and only then, if no comment
along a line holds a quote or a star. -/
theorem extractImports_callText (fillers : List Filler) (specifier : Literal)
    (hlocal : "./".toList <+: specifier.inner) :
    ((extractImports (callText .load fillers specifier [])).map ImportMatch.specifier =
        [String.ofList specifier.inner] ↔
      fillers.all Filler.isPlain ∧ ¬ showsArgument fillers (argumentText specifier [])) ∧
    (fillers.all Filler.isPlain →
      (extractImports (callText .require fillers specifier [])).map ImportMatch.specifier =
        [String.ofList specifier.inner]) ∧
    ((∀ body unbroken, .line body unbroken ∈ fillers → ∀ c ∈ body, ¬ isQuote c ∧ c ≠ '*') →
      (extractImports (callText .require fillers specifier [])).map ImportMatch.specifier =
        [String.ofList specifier.inner] → fillers.all Filler.isPlain) := by
  have htail : StaysQuiet [] := by simp [StaysQuiet]
  have hkept := isLocalSpecifier_of_relative hlocal
  refine ⟨⟨isPlain_of_extracted_load htail hlocal, ?_⟩, fun hplain => ?_,
    isPlain_of_extracted_require htail⟩
  · rintro ⟨hplain, hshows⟩
    exact extractImports_of_isPlain htail hplain (fun _ => hshows) false hkept
  · exact extractImports_of_isPlain htail hplain (fun heq => by cases heq) false hkept

/-- A comment between slash and star, and an empty comment along a line. -/
theorem extractImports_callText_plain :
    let fillers : List Filler := [.blank ' ' rfl, .block " a ".toList (by decide) (by decide),
      .line [] (by decide)]
    let specifier : Literal := ⟨'\x27', "./x".toList, by decide, by decide, by decide, by decide⟩
    callText .load fillers specifier [] = "import( /* a *///\n'./x')".toList ∧
      (extractImports (callText .load fillers specifier [])).map ImportMatch.specifier = ["./x"] := by
  intro fillers specifier
  refine ⟨by decide, ?_⟩
  have hshows : ¬ showsArgument fillers (argumentText specifier []) := by decide +kernel
  exact (extractImports_callText fillers specifier ⟨['x'], rfl⟩).1.mpr ⟨rfl, hshows⟩

/-- Not every comment lets a specifier be extracted: one with a second star behind its opening hides
the call from both rules. -/
theorem not_forall_extractImports_callText :
    ¬ ∀ (fillers : List Filler) (specifier : Literal), "./".toList <+: specifier.inner →
      ∀ loader, (extractImports (callText loader fillers specifier [])).map ImportMatch.specifier =
        [String.ofList specifier.inner] := by
  intro h
  have hcall := h [.block "* c ".toList (by decide) (by decide), .blank ' ' rfl]
    ⟨'\x27', "./x".toList, by decide, by decide, by decide, by decide⟩ ⟨['x'], rfl⟩ .load
  revert hcall
  decide +kernel

end ImportAtlas.Clean
