import ImportAtlas.Proofs.Import.Skimming

/-!
# Rules at the start of a line

What the rules for statements say of the text behind the start of a line. Each asks for its keyword,
and for something that stands right behind the keyword. Each reads on to a literal, and only the
rule for attributes reads on behind it.
-/

namespace ImportAtlas

open Pattern

open scoped Text.AlongRun

namespace ImportRule

/-- A clause of attributes behind a specifier. -/
def attributeClause : Pattern := all [blanks, .alt (word "assert") (word "with"), blanks, braces]

/-- The indentation of a line. -/
@[simp]
theorem skims_indentation : indentation.Skims := skims_lineStart.seq (skims_many (by decide))

/-- A default binding before other bindings, or none. -/
@[simp]
theorem skims_defaultPart : (optional (all [name, blanks, mark ',', blanks])).Skims :=
  (skims_all (by simp (disch := decide))).optional

/-- The name given to a star, or none. -/
@[simp]
theorem skims_aliasPart : (optional (all [blanks, word "as", gap, name])).Skims :=
  (skims_all (by simp (disch := decide))).optional

/-- Named bindings or a namespace. -/
@[simp]
theorem skims_groups : (Pattern.alt braces namespaceBinding).Skims :=
  skims_braces.alt skims_namespaceBinding

/-- Named bindings, a namespace or a default binding. -/
@[simp]
theorem skims_bindings : (firstOf [braces, namespaceBinding, name]).Skims :=
  skims_firstOf (by simp)

/-- Named bindings or a star, with or without a name. -/
@[simp]
theorem skims_exports :
    (Pattern.alt braces (.seq (mark '*') (optional (all [blanks, word "as", gap, name])))).Skims :=
  skims_braces.alt ((skims_mark (by decide)).seq skims_aliasPart)

/-- A rule for statements reads on to a literal; the rule for attributes reads a clause behind it,
the others nothing more. -/
theorem reads_of_anchored {rule : ImportRule} (h : rule ∈ importRules) (ha : rule.anchored) :
    rule.pattern.Reads (if rule.kind = .importAttributes then attributeClause else .empty) := by
  simp only [importRules, List.mem_cons, List.not_mem_nil, or_false] at h
  rcases h with rfl | rfl | rfl | rfl | rfl | rfl | rfl | rfl | rfl | rfl | rfl | rfl | rfl | rfl | rfl
  · exact reads_all_last [indentation, word "import", gap, word "type", gap,
      firstOf [braces, namespaceBinding, name]] (by simp (disch := decide)) reads_fromQuoted
  · exact reads_all_last [indentation, word "export", gap, word "type", gap,
      .alt braces (.seq (mark '*') (optional (all [blanks, word "as", gap, name])))]
      (by simp (disch := decide)) reads_fromQuoted
  · cases ha
  · exact reads_all [indentation, word "import", blanks,
      optional (all [name, blanks, mark ',', blanks]), firstOf [braces, namespaceBinding, name]]
      [blanks, .alt (word "assert") (word "with"), blanks, braces] (by simp (disch := decide)) reads_fromQuoted rfl
  · exact reads_all_last [indentation, word "import", gap, word "source", gap, name]
      (by simp (disch := decide)) reads_gapFromQuoted
  · exact reads_all_last [indentation, word "import", gap, name, blanks, mark ',', blanks,
      .alt braces namespaceBinding] (by simp (disch := decide)) reads_fromQuoted
  · exact reads_all_last [indentation, word "import", blanks, braces] (by simp (disch := decide))
      reads_fromQuoted
  · exact reads_all_last [indentation, word "import", blanks, namespaceBinding] (by simp (disch := decide))
      reads_gapFromQuoted
  · exact reads_all_last [indentation, word "import", gap, name] (by simp (disch := decide))
      reads_gapFromQuoted
  · exact reads_all_last [indentation, word "import", blanks] (by simp (disch := decide)) reads_quoted
  · cases ha
  · cases ha
  · cases ha
  · exact reads_all_last [indentation, word "export", blanks, mark '*',
      optional (all [blanks, word "as", gap, name])] (by simp (disch := decide)) reads_fromQuoted
  · exact reads_all_last [indentation, word "export", blanks, braces] (by simp (disch := decide))
      reads_fromQuoted

/-- The name that a text begins with, if any. -/
def leadingName (s : List Char) : List Char := s.takeWhile inName

/-- What stands behind the name that a text begins with, and behind the blanks there. -/
def afterName (s : List Char) : List Char := (s.dropWhile inName).dropWhile Text.isBlank

/-- Whether a text begins with a character of a class. -/
def beginsWith (belongs : Char → Bool) (s : List Char) : Bool := s.head?.any belongs

/-- Whether a text can stand behind the keyword of a kind of statement, judged by what it begins
with. No text can if the kind is one of calls. -/
def opens : ImportKind → List Char → Bool
  | .typeImport, s | .typeReexport, s => leadingName s == "type".toList
  | .importAttributes, s =>
    beginsWith (· == '\x7b') s || beginsWith (· == '*') s || beginsWith inName s &&
      (beginsWith (· == ',') (afterName s) || beginsWith isQuote (afterName s) ||
        beginsWith isQuote (afterName (afterName s)))
  | .sourcePhase, s => leadingName s == "source".toList
  | .mixedImport, s => beginsWith inName s && beginsWith (· == ',') (afterName s)
  | .namedImport, s | .exportNamed, s => beginsWith (· == '\x7b') s
  | .namespaceImport, s | .exportAll, s => beginsWith (· == '*') s
  | .defaultImport, s => beginsWith inName s
  | .sideEffectImport, s => beginsWith isQuote s
  | _, _ => false

/-- The keyword of a kind of statement. -/
def keyword : ImportKind → String
  | .typeReexport | .exportAll | .exportNamed => "export"
  | _ => "import"

/-- There are two keywords. -/
theorem keyword_cases (kind : ImportKind) : keyword kind = "import" ∨ keyword kind = "export" := by
  cases kind <;> simp [keyword]

/-- A keyword begins with no blank. -/
theorem stops_keyword (kind : ImportKind) (t : List Char) :
    Text.Stops Text.isBlank ((keyword kind).toList ++ t) := by
  rcases keyword_cases kind with heq | heq <;> rw [heq] <;> exact Text.stops_cons.mpr rfl

section Opening

variable {ps : List Pattern} {left s right : List Char} {gs : List (List Char)}

/-- Behind blanks, no name goes on. -/
theorem stops_inName_of_isBlank {run rest : List Char} (hne : run ≠ [])
    (hrun : ∀ c ∈ run, Text.isBlank c) : Text.Stops inName (run ++ rest) := by
  obtain ⟨c, run, rfl⟩ := List.exists_cons_of_ne_nil hne
  rw [List.cons_append, Text.stops_cons]
  exact inName_of_isBlank (hrun c List.mem_cons_self)

/-- Behind blanks, or none, no name goes on if it does not behind them. -/
theorem stops_inName_append {run rest : List Char} (hrun : ∀ c ∈ run, Text.isBlank c)
    (hrest : Text.Stops inName rest) : Text.Stops inName (run ++ rest) := by
  by_cases hne : run = []
  · rwa [hne]
  · exact stops_inName_of_isBlank hne hrun

/-- A text that begins with one class does not go on with another. -/
theorem stops_of_beginsWith {belongs other : Char → Bool} {s : List Char} (h : beginsWith other s)
    (hother : ∀ c, other c → belongs c = false) : Text.Stops belongs s := by
  cases s with
  | nil => cases h
  | cons c s => exact Text.stops_cons.mpr (hother c h)

/-- What stands behind a name and blanks. -/
theorem afterName_eq {run gap rest : List Char} (hrun : ∀ c ∈ run, inName c)
    (hgap : ∀ c ∈ gap, Text.isBlank c) (hname : Text.Stops inName (gap ++ rest))
    (hrest : Text.Stops Text.isBlank rest) : afterName (run ++ (gap ++ rest)) = rest := by
  rw [afterName, Text.dropWhile_run hrun hname, Text.dropWhile_run hgap hrest]

/-- Behind a name and blanks a character of another kind follows. -/
theorem beginsWith_afterName {belongs : Char → Bool} {run gap rest : List Char}
    (hrun : ∀ c ∈ run, inName c) (hgap : ∀ c ∈ gap, Text.isBlank c) (hrest : beginsWith belongs rest)
    (hname : ∀ c, belongs c → inName c = false) (hblank : ∀ c, belongs c → Text.isBlank c = false) :
    beginsWith belongs (afterName (run ++ (gap ++ rest))) := by
  rwa [afterName_eq hrun hgap (stops_inName_append hgap (stops_of_beginsWith hrest hname))
    (stops_of_beginsWith hrest hblank)]

/-- A statement begins with its keyword. -/
theorem accepts_keyword {k : String} {between : Pattern} {body : List Pattern}
    (hbetween : between = gap ∨ between = blanks)
    (h : (all (indentation :: word k :: between :: body)).Accepts left s right gs) :
    left.getLast?.all (· == '\n') ∧ ∃ indent gap rest left',
      s = indent ++ (k.toList ++ (gap ++ rest)) ∧ (∀ c ∈ indent, Text.isBlank c) ∧
        (∀ c ∈ gap, Text.isBlank c) ∧ (all body).Accepts left' rest right gs := by
  obtain ⟨_, s, gs, hs, rfl, rfl, ⟨_, indent, _, _, rfl, rfl, ⟨hline, rfl, rfl⟩, hindent, rfl⟩, h⟩ := h
  obtain ⟨w, s, gs, hs, rfl, rfl, hw, gap, rest, gs', hs', rfl, rfl, hgap, hbody⟩ := h
  obtain ⟨rfl, rfl⟩ := accepts_text.mp hw
  have hblank : (∀ c ∈ gap, Text.isBlank c) ∧ gs' = [] := by
    rcases hbetween with rfl | rfl
    · exact (accepts_some.mp hgap).2
    · exact hgap
  have hspace : ∀ c ∈ indent, Text.isBlank c := by
    intro c hc
    have hchar := hindent c hc
    rw [Bool.or_eq_true, beq_iff_eq, beq_iff_eq] at hchar
    rcases hchar with rfl | rfl <;> decide
  obtain rfl := hblank.2
  exact ⟨hline, indent, gap, rest, _, rfl, hspace, hblank.1, hbody⟩

/-- A word set off by a blank is the name that a text begins with. -/
theorem leadingName_of_accepts {w : String} (hw : ∀ c ∈ w.toList, inName c)
    (h : (all (word w :: gap :: ps)).Accepts left s right gs) :
    leadingName (s ++ right) = w.toList := by
  obtain ⟨s, t, gs, hs, rfl, rfl, hword, run, t, gs, hs, rfl, rfl, hgap, -⟩ := h
  obtain ⟨rfl, rfl⟩ := accepts_text.mp hword
  obtain ⟨hne, hblank, rfl⟩ := accepts_some.mp hgap
  rw [List.append_assoc, List.append_assoc]
  exact Text.takeWhile_run hw (stops_inName_of_isBlank hne hblank)

/-- Patterns one after the other, the first a character of a class, begin with it. -/
theorem beginsWith_of_one {belongs : Char → Bool}
    (h : (all (.one belongs :: ps)).Accepts left s right gs) : beginsWith belongs s := by
  obtain ⟨s, t, gs, hs, rfl, rfl, ⟨⟨c, hc, rfl⟩, -⟩, -⟩ := h
  exact hc

/-- A text begins with what a text behind which it goes on begins with. -/
theorem beginsWith_append {belongs : Char → Bool} {s : List Char} (h : beginsWith belongs s)
    (rest : List Char) : beginsWith belongs (s ++ rest) := by
  cases s with
  | nil => cases h
  | cons c s => exact h

/-- A name is not empty. -/
theorem beginsWith_of_name (h : name.Accepts left s right gs) : beginsWith inName s := by
  obtain ⟨hne, hs, -⟩ := accepts_some.mp h
  obtain ⟨c, s, rfl⟩ := List.exists_cons_of_ne_nil hne
  exact hs c List.mem_cons_self

/-- Behind a name and blanks stands a comma. -/
theorem afterName_of_comma (h : (all (name :: blanks :: mark ',' :: ps)).Accepts left s right gs) :
    beginsWith (· == ',') (afterName (s ++ right)) := by
  obtain ⟨run, s, gs, hs, rfl, rfl, hrun, gap, s, gs', hs', rfl, rfl, ⟨hgap, -⟩, hmark⟩ := h
  have hname : ∀ c, (c == ',') = true → inName c = false := by
    rintro c hc
    rw [beq_iff_eq.mp hc]
    decide
  have hblank : ∀ c, (c == ',') = true → Text.isBlank c = false := by
    rintro c hc
    rw [beq_iff_eq.mp hc]
    decide
  rw [List.append_assoc, List.append_assoc]
  exact beginsWith_afterName (accepts_some.mp hrun).2.1 hgap
    (beginsWith_append (beginsWith_of_one hmark) _) hname hblank

/-- A quote stands in no name. -/
theorem inName_of_isQuote {c : Char} (h : isQuote c) : inName c = false := by
  simp only [isQuote, Bool.or_eq_true, beq_iff_eq] at h
  rcases h with (rfl | rfl) | rfl <;> decide

/-- A quote is no blank. -/
theorem isBlank_of_isQuote {c : Char} (h : isQuote c) : Text.isBlank c = false := by
  simp only [isQuote, Bool.or_eq_true, beq_iff_eq] at h
  rcases h with (rfl | rfl) | rfl <;> decide

/-- A name before `from` and a literal. The word may have no blank before it; then it is read as the
end of the name. -/
theorem afterName_of_fromQuoted {run : List Char} (hrun : ∀ c ∈ run, inName c)
    (h : fromQuoted.Accepts left s right gs) :
    beginsWith isQuote (afterName (run ++ (s ++ right))) ∨
      beginsWith isQuote (afterName (afterName (run ++ (s ++ right)))) := by
  obtain ⟨gap, s, gs, hs, rfl, rfl, ⟨hgap, -⟩, w, s, gs', hs', rfl, rfl, hw, gap', s, gs, hs, rfl, rfl,
    ⟨hgap', -⟩, s, t, gs, hs, rfl, rfl, ⟨u, v, gs, hs, rfl, rfl, ⟨⟨q, hq, rfl⟩, -⟩, -⟩, rfl, -⟩ := h
  obtain ⟨rfl, -⟩ := accepts_text.mp hw
  have hfrom : ∀ c ∈ "from".toList, inName c := by decide
  have hstop (rest : List Char) : Text.Stops Text.isBlank ("from".toList ++ rest) := by
    rw [show "from".toList = ['f', 'r', 'o', 'm'] by decide, List.cons_append, Text.stops_cons]
    decide
  have hliteral : beginsWith isQuote ([q] ++ v ++ [] ++ right) := hq
  have hquote := beginsWith_afterName hfrom hgap' hliteral (fun _ => inName_of_isQuote)
    fun _ => isBlank_of_isQuote
  simp only [List.append_assoc] at hquote ⊢
  by_cases hne : gap = []
  · subst hne
    have hlong : ∀ c ∈ run ++ "from".toList, inName c := fun c hc =>
      (List.mem_append.mp hc).elim (hrun c) (hfrom c)
    have hquote' := beginsWith_afterName hlong hgap' hliteral (fun _ => inName_of_isQuote)
      fun _ => isBlank_of_isQuote
    simp only [List.append_assoc] at hquote'
    exact .inl hquote'
  · refine .inr ?_
    rwa [afterName_eq hrun hgap (stops_inName_of_isBlank hne hgap) (hstop _)]

/-- Patterns one after the other begin with what the first of them begins with. -/
theorem beginsWith_of_first {p : Pattern} {belongs : Char → Bool}
    (hp : ∀ {left s right gs}, p.Accepts left s right gs → beginsWith belongs s)
    (h : (all (p :: ps)).Accepts left s right gs) : beginsWith belongs (s ++ right) := by
  obtain ⟨s, t, gs, hs, rfl, rfl, hfirst, -⟩ := h
  rw [List.append_assoc]
  exact beginsWith_append (hp hfirst) _

/-- Before a clause of attributes stand bindings of any kind. -/
theorem opens_importAttributes (h : (all (optional (all [name, blanks, mark ',', blanks]) ::
    firstOf [braces, namespaceBinding, name] :: fromQuoted :: ps)).Accepts left s right gs) :
    opens .importAttributes (s ++ right) := by
  simp only [opens, Bool.or_eq_true, Bool.and_eq_true]
  obtain ⟨s, t, gs, hs, rfl, rfl, hdefault | ⟨rfl, rfl⟩, h⟩ := h
  · rw [List.append_assoc]
    exact .inr ⟨beginsWith_of_first beginsWith_of_name hdefault, .inl (.inl (afterName_of_comma hdefault))⟩
  · obtain ⟨s, t, gs, hs, rfl, rfl, hbinding, t, u, gs, hs, rfl, rfl, hfrom, -⟩ := h
    rw [List.nil_append, List.append_assoc]
    obtain ⟨p, hp, hbinding⟩ := accepts_firstOf.mp hbinding
    simp only [List.mem_cons, List.not_mem_nil, or_false] at hp
    rcases hp with rfl | rfl | rfl
    · exact .inl (.inl (beginsWith_append (beginsWith_of_one hbinding) _))
    · exact .inl (.inr (beginsWith_append (beginsWith_of_one hbinding) _))
    · have hliteral := afterName_of_fromQuoted (accepts_some.mp hbinding).2.1 hfrom
      rw [← List.append_assoc t] at hliteral
      exact .inr ⟨beginsWith_append (beginsWith_of_name hbinding) _, hliteral.imp .inr id⟩

end Opening

/-- A rule for statements asks for the start of a line, its keyword, and something behind it. -/
theorem opens_of_anchored {rule : ImportRule} (h : rule ∈ importRules) (ha : rule.anchored)
    {left s right : List Char} {gs : List (List Char)} (hs : rule.pattern.Accepts left s right gs) :
    left.getLast?.all (· == '\n') ∧ ∃ indent gap rest,
      s = indent ++ ((keyword rule.kind).toList ++ (gap ++ rest)) ∧ (∀ c ∈ indent, Text.isBlank c) ∧
        (∀ c ∈ gap, Text.isBlank c) ∧ opens rule.kind (rest ++ right) := by
  have hkeyword {k : String} {between : Pattern} {body : List Pattern}
      (hbetween : between = gap ∨ between = blanks)
      (hpattern : rule.pattern = all (indentation :: word k :: between :: body))
      (hk : keyword rule.kind = k)
      (hbody : ∀ {left rest}, (all body).Accepts left rest right gs → opens rule.kind (rest ++ right)) :
      left.getLast?.all (· == '\n') ∧ ∃ indent gap rest,
        s = indent ++ ((keyword rule.kind).toList ++ (gap ++ rest)) ∧
          (∀ c ∈ indent, Text.isBlank c) ∧ (∀ c ∈ gap, Text.isBlank c) ∧
            opens rule.kind (rest ++ right) := by
    rw [hpattern] at hs
    obtain ⟨hline, indent, gap, rest, left', hsplit, hindent, hgap, hrest⟩ := accepts_keyword hbetween hs
    exact ⟨hline, indent, gap, rest, hk ▸ hsplit, hindent, hgap, hbody hrest⟩
  simp only [importRules, List.mem_cons, List.not_mem_nil, or_false] at h
  rcases h with rfl | rfl | rfl | rfl | rfl | rfl | rfl | rfl | rfl | rfl | rfl | rfl | rfl | rfl | rfl
  · exact hkeyword (.inl rfl) rfl rfl fun h => beq_iff_eq.mpr (leadingName_of_accepts (by decide) h)
  · exact hkeyword (.inl rfl) rfl rfl fun h => beq_iff_eq.mpr (leadingName_of_accepts (by decide) h)
  · cases ha
  · refine hkeyword (.inr rfl) rfl rfl fun h => ?_
    exact opens_importAttributes h
  · exact hkeyword (.inl rfl) rfl rfl fun h => beq_iff_eq.mpr (leadingName_of_accepts (by decide) h)
  · exact hkeyword (.inl rfl) rfl rfl fun h => Bool.and_eq_true _ _ ▸
      ⟨beginsWith_of_first beginsWith_of_name h, afterName_of_comma h⟩
  · exact hkeyword (.inr rfl) rfl rfl fun h => beginsWith_of_first (beginsWith_of_one) h
  · exact hkeyword (.inr rfl) rfl rfl fun h =>
      beginsWith_of_first (beginsWith_of_one) h
  · exact hkeyword (.inl rfl) rfl rfl fun h => beginsWith_of_first (beginsWith_of_name) h
  · exact hkeyword (.inr rfl) rfl rfl fun h => beginsWith_of_first (beginsWith_of_one) h
  · cases ha
  · cases ha
  · cases ha
  · exact hkeyword (.inr rfl) rfl rfl fun h => beginsWith_append (beginsWith_of_one h) _
  · exact hkeyword (.inr rfl) rfl rfl fun h => beginsWith_of_first (beginsWith_of_one) h

/-- A text that begins with a name begins with a character of a name. -/
theorem beginsWith_of_leadingName {s : List Char} (h : leadingName s ≠ []) : beginsWith inName s := by
  cases s with
  | nil => exact absurd rfl h
  | cons c s =>
    by_contra hc
    exact h (List.takeWhile_cons_of_neg hc)

/-- What can stand behind a keyword begins with no blank. -/
theorem stops_of_opens {kind : ImportKind} {s : List Char} (h : opens kind s) :
    Text.Stops Text.isBlank s := by
  have hclass {belongs : Char → Bool} (hbegins : beginsWith belongs s)
      (hblank : ∀ c, belongs c → Text.isBlank c = false) : Text.Stops Text.isBlank s :=
    stops_of_beginsWith hbegins hblank
  have hchar {c : Char} (hc : Text.isBlank c = false) (hbegins : beginsWith (· == c) s) :
      Text.Stops Text.isBlank s := hclass hbegins fun d hd => beq_iff_eq.mp hd ▸ hc
  have hname (hbegins : beginsWith inName s) : Text.Stops Text.isBlank s :=
    hclass hbegins fun _ => isBlank_of_inName
  have hword {w : String} (hw : w.toList ≠ []) (hleading : (leadingName s == w.toList) = true) :
      Text.Stops Text.isBlank s :=
    hname (beginsWith_of_leadingName (beq_iff_eq.mp hleading ▸ hw))
  cases kind with
  | typeImport | typeReexport => exact hword (by decide) h
  | sourcePhase => exact hword (by decide) h
  | importAttributes =>
    simp only [opens, Bool.or_eq_true, Bool.and_eq_true] at h
    rcases h with (hbrace | hstar) | ⟨hbegins, -⟩
    · exact hchar rfl hbrace
    · exact hchar rfl hstar
    · exact hname hbegins
  | mixedImport => exact hname (Bool.and_eq_true_iff.mp h).1
  | namedImport | exportNamed | namespaceImport | exportAll => exact hchar rfl h
  | defaultImport => exact hname h
  | sideEffectImport => exact hclass h fun _ => isBlank_of_isQuote
  | dynamicExpression | dynamicSource | dynamicImport | requireCall => cases h

end ImportRule

end ImportAtlas
