import ImportAtlas.Proofs.Import.ModuleImports

/-!
# Greedy selection

The rules select among their matches greedily: a match is found unless it is hidden or overlaps what
an earlier rule found. What is found is therefore fixed by the matches of the rules and by their
order. Each rule but the one for computed arguments captures what stands between two quotes in its
match, so that a specifier that is to be resolved is neither empty nor broken over lines.
-/

namespace ImportAtlas

open Pattern ImportRule Clean

namespace Pattern

/-- A pattern that takes a text with a literal in it, and captures what is quoted. -/
def Quotes (p : Pattern) : Prop :=
  ∀ ⦃left s right gs⦄, p.Accepts left s right gs → ∃ head q inner q' after,
    s = head ++ q :: (inner ++ q' :: after) ∧ isQuote q ∧ isQuote q' ∧ inner ≠ [] ∧
      (∀ c ∈ inner, inSpecifier c) ∧ gs = [inner]

section Quotes

variable {p q tail : Pattern}

/-- A literal. -/
theorem quotes_quoted : quoted.Quotes := by
  intro left s right gs h
  obtain ⟨q, inner, q', rfl, hq, hq', hne, hcontent, rfl⟩ := exists_of_quoted h
  exact ⟨[], q, inner, q', [], rfl, hq, hq', hne, hcontent, rfl⟩

/-- A literal behind what captures nothing. -/
theorem Quotes.seq (hq : q.Quotes) (hp : p.isSilent) : (Pattern.seq p q).Quotes := by
  rintro left s right gs ⟨s, t, gs, hs, rfl, rfl, hfirst, hsecond⟩
  obtain rfl := eq_nil_of_isSilent hp hfirst
  obtain ⟨head, q, inner, q', after, rfl, hrest⟩ := hq hsecond
  exact ⟨s ++ head, q, inner, q', after, by rw [List.append_assoc], hrest⟩

/-- A literal before what captures nothing. -/
theorem Quotes.seq_tail (hp : p.Quotes) (htail : tail.isSilent) : (Pattern.seq p tail).Quotes := by
  rintro left s right gs ⟨s, t, gs, hs, rfl, rfl, hfirst, hsecond⟩
  obtain rfl := eq_nil_of_isSilent htail hsecond
  obtain ⟨head, q, inner, q', after, rfl, hq, hq', hne, hinner, rfl⟩ := hp hfirst
  exact ⟨head, q, inner, q', after ++ t, by simp, hq, hq', hne, hinner, rfl⟩

/-- Patterns one after the other, of which one takes a literal and the others capture nothing. -/
theorem quotes_all (ps qs : List Pattern) (hps : ps.all isSilent) (hq : q.Quotes)
    (htail : (all qs).isSilent) : (all (ps ++ q :: qs)).Quotes := by
  induction ps with
  | nil => exact hq.seq_tail htail
  | cons p ps ih =>
    obtain ⟨hp, hps⟩ := Bool.and_eq_true_iff.mp hps
    exact (ih hps).seq hp

/-- The word before a literal and the literal. -/
theorem quotes_fromQuoted : fromQuoted.Quotes :=
  quotes_all [blanks, word "from", blanks] [] rfl quotes_quoted rfl

/-- The word before a literal, set off by a blank, and the literal. -/
theorem quotes_gapFromQuoted : gapFromQuoted.Quotes :=
  quotes_all [gap, word "from", blanks] [] rfl quotes_quoted rfl

end Quotes

end Pattern

/-- Each rule but the one for computed arguments takes a literal and captures what is quoted. -/
theorem quotes_of_mem_importRules {rule : ImportRule} (h : rule ∈ importRules)
    (hkind : rule.kind ≠ .dynamicExpression) : rule.pattern.Quotes := by
  simp only [importRules, List.mem_cons, List.not_mem_nil, or_false] at h
  rcases h with rfl | rfl | rfl | rfl | rfl | rfl | rfl | rfl | rfl | rfl | rfl | rfl | rfl | rfl | rfl
  · exact quotes_all [indentation, word "import", gap, word "type", gap,
      firstOf [braces, namespaceBinding, name]] [] rfl quotes_fromQuoted rfl
  · exact quotes_all [indentation, word "export", gap, word "type", gap,
      .alt braces (.seq (mark '*') (optional (all [blanks, word "as", gap, name])))] [] rfl
      quotes_fromQuoted rfl
  · exact absurd rfl hkind
  · exact quotes_all [indentation, word "import", blanks,
      optional (all [name, blanks, mark ',', blanks]), firstOf [braces, namespaceBinding, name]]
      [blanks, .alt (word "assert") (word "with"), blanks, braces] rfl quotes_fromQuoted rfl
  · exact quotes_all [indentation, word "import", gap, word "source", gap, name] [] rfl
      quotes_gapFromQuoted rfl
  · exact quotes_all [indentation, word "import", gap, name, blanks, mark ',', blanks,
      .alt braces namespaceBinding] [] rfl quotes_fromQuoted rfl
  · exact quotes_all [indentation, word "import", blanks, braces] [] rfl quotes_fromQuoted rfl
  · exact quotes_all [indentation, word "import", blanks, namespaceBinding] [] rfl
      quotes_gapFromQuoted rfl
  · exact quotes_all [indentation, word "import", gap, name] [] rfl quotes_gapFromQuoted rfl
  · exact quotes_all [indentation, word "import", blanks] [] rfl quotes_quoted rfl
  · exact quotes_all [wordEdge, word "import.source", openCall] [] rfl quotes_quoted rfl
  · exact quotes_all [wordEdge, word "import", openCall] [] rfl quotes_quoted rfl
  · exact quotes_all [wordEdge, word "require", blanks, mark '(', blanks, comments]
      [blanks, comments, mark ')'] rfl quotes_quoted rfl
  · exact quotes_all [indentation, word "export", blanks, mark '*',
      optional (all [blanks, word "as", gap, name])] [] rfl quotes_fromQuoted rfl
  · exact quotes_all [indentation, word "export", blanks, braces] [] rfl quotes_fromQuoted rfl

/-- The rule for computed arguments captures nothing. -/
theorem isSilent_of_mem_importRules : ∀ rule ∈ importRules, rule.kind = .dynamicExpression →
    rule.pattern.isSilent := by decide

/-- Constructs that create a dependency are those of the rules that capture a literal. -/
theorem kind_ne_of_skip : ∀ rule ∈ importRules, rule.skip = false →
    rule.kind ≠ .dynamicExpression := by decide

/-- The specifier of a construct stands between two quotes in the stretch of the construct. It is not
empty, holds no quote, and is not broken over lines. -/
structure IsQuotedIn (text : List Char) (item : ImportMatch) : Prop where
  ne_empty : item.specifier ≠ ""
  plain : ∀ c ∈ item.specifier.toList, ¬ isQuote c ∧ c ≠ '\n'
  placed : ∃ before q q' after, text = before ++ q :: (item.specifier.toList ++ q' :: after) ∧
    isQuote q ∧ isQuote q' ∧ item.offset ≤ before.length ∧
      before.length + item.specifier.length + 2 ≤ item.stop

/-- What a rule reports for its match is the literal in the match, or for a computed argument the
empty specifier. -/
theorem ofMatch_quoted {text : List Char} {rule : ImportRule} {m : Pattern.Match}
    (hrule : rule ∈ importRules) (hm : m ∈ rule.pattern.findAll text) :
    if rule.kind = .dynamicExpression then (ImportMatch.ofMatch rule m).specifier = ""
    else IsQuotedIn text (.ofMatch rule m) := by
  obtain ⟨left, right, rfl, hmatch⟩ := matchAfter_of_mem_findAll hm
  obtain ⟨s, right, rfl, hs, hstart, hstop⟩ := accepts_of_matchAfter hmatch
  split
  · next hkind =>
    rw [ImportMatch.ofMatch, eq_nil_of_isSilent (isSilent_of_mem_importRules rule hrule hkind) hs]
    rfl
  · next hkind =>
    obtain ⟨head, q, inner, q', after, rfl, hq, hq', hne, hinner, hgroups⟩ :=
      quotes_of_mem_importRules hrule hkind hs
    have hspecifier : (ImportMatch.ofMatch rule m).specifier.toList = inner := by
      rw [ImportMatch.ofMatch, hgroups]
      exact String.toList_ofList
    refine ⟨fun hempty => ?_, fun c hc => ?_, left ++ head, q, q', after ++ right, ?_, hq, hq', ?_, ?_⟩
    · rw [hempty] at hspecifier
      exact hne hspecifier.symm
    · have hplain := hinner c (hspecifier ▸ hc)
      rw [inSpecifier, Bool.and_eq_true, Bool.not_eq_true', bne_iff_ne] at hplain
      exact ⟨Bool.not_eq_true _ ▸ hplain.1, hplain.2⟩
    · rw [hspecifier]
      simp
    · rw [List.length_append]
      exact Nat.le_trans (Nat.le_of_eq hstart) (Nat.le_add_right _ _)
    · rw [← String.length_toList, hspecifier]
      change _ ≤ m.stop
      rw [hstop]
      simp only [List.length_append, List.length_cons]
      omega

/-- Constructs of a text are the greedy selection of the rules: they follow each other, none of them
is empty, and a match of a rule is one of them exactly if it is not a call in a comment or in a
literal and overlaps nothing that an earlier rule contributed. -/
structure IsGreedySelection (text : List Char) (items : List ImportMatch) : Prop where
  ascending : items.Pairwise fun a b => a.offset < b.offset ∧ a.stop ≤ b.offset
  bounds : ∀ item ∈ items, item.offset < item.stop ∧ item.stop ≤ text.length
  comes : ∀ item ∈ items, ∃ rule ∈ importRules, ∃ m ∈ rule.pattern.findAll text,
    item = .ofMatch rule m
  mem_iff : ∀ rule ∈ importRules, ∀ m ∈ rule.pattern.findAll text,
    .ofMatch rule m ∈ items ↔ ¬ (rule.anchored = false ∧ inCommentOrLiteral text m.start) ∧
      ∀ item ∈ items, rank item.kind < rank rule.kind →
        ¬ overlaps m.start m.stop item.offset item.stop

/-- What is found is the greedy selection of the rules. -/
theorem isGreedySelection_findImports (text : List Char) :
    IsGreedySelection text (findImports text) where
  ascending := by
    refine (findImports_ascending text).imp_of_mem fun {a b} ha hb hlt => ⟨hlt, ?_⟩
    have hbounds := (isConstruct_of_mem_findImports hb).bounds.1
    have hapart := not_overlaps_of_mem ha hb fun heq => by simp [heq] at hlt
    rw [overlaps, Bool.and_eq_true, decide_eq_true_eq, decide_eq_true_eq] at hapart
    omega
  bounds _ hitem := (isConstruct_of_mem_findImports hitem).bounds
  comes _ hitem := isConstruct_of_mem_findImports hitem
  mem_iff rule hrule m hm := by
    have hhidden : rule.isHidden text m ↔
        rule.anchored = false ∧ inCommentOrLiteral text m.start := by
      rw [ImportRule.isHidden, Bool.and_eq_true, Bool.not_eq_true']
    rw [← hhidden]
    refine ⟨fun hmem => ⟨not_isHidden_of_mem hrule hmem, fun item hitem hlt => ?_⟩, ?_⟩
    · have hne : ImportMatch.ofMatch rule m ≠ item := by
        rintro rfl
        exact Nat.lt_irrefl _ hlt
      exact not_overlaps_of_mem hmem hitem hne
    · rintro ⟨hvisible, hfree⟩
      rcases mem_findImports_or hrule hm with hmem | hhides | ⟨item, hitem, hlt, hoverlaps⟩
      · exact hmem
      · exact absurd hhides hvisible
      · exact absurd hoverlaps (hfree item hitem hlt)

/-- What is extracted from a text is what stands between two quotes in it. -/
theorem isQuotedIn_of_mem_extractImports {text : List Char} {external : Bool} {item : ImportMatch}
    (h : item ∈ extractImports text external) : IsQuotedIn text item := by
  obtain ⟨hfound, hkept⟩ := List.mem_filter.mp h
  obtain ⟨rule, hrule, m, hm, rfl⟩ := isConstruct_of_mem_findImports hfound
  have hskip : rule.skip = false := Bool.not_eq_true' _ ▸ (Bool.and_eq_true_iff.mp hkept).1
  have hquoted := ofMatch_quoted hrule hm
  rwa [if_neg (kind_ne_of_skip rule hrule hskip)] at hquoted

/-- What is found in a text is the greedy selection of the rules among their matches. Each match of a
rule reports the literal that stands between two quotes in it, which is not empty, holds no quote and
is not broken over lines; only a computed argument is reported with the empty specifier. So each
specifier that is extracted from a text to be resolved is neither empty nor broken over lines. -/
theorem findImports_greedy (text : List Char) :
    IsGreedySelection text (findImports text) ∧
      (∀ rule ∈ importRules, ∀ m ∈ rule.pattern.findAll text,
        if rule.kind = .dynamicExpression then (ImportMatch.ofMatch rule m).specifier = ""
        else IsQuotedIn text (.ofMatch rule m)) ∧
      ∀ external, ∀ item ∈ extractImports text external,
        item.specifier ≠ "" ∧ '\n' ∉ item.specifier.toList := by
  refine ⟨isGreedySelection_findImports text, fun rule hrule m hm => ofMatch_quoted hrule hm, ?_⟩
  intro external item hitem
  have hquoted := isQuotedIn_of_mem_extractImports hitem
  exact ⟨hquoted.ne_empty, fun hmem => (hquoted.plain _ hmem).2 rfl⟩

example : findImports "require('./a'); // require('./b')\n".toList =
    [⟨"./a", .requireCall, 0, 14, false⟩] := by decide +kernel

end ImportAtlas
