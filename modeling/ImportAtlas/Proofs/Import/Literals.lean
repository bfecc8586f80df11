import ImportAtlas.Proofs.Import.CommentedCalls

/-!
# Specifiers and the literals they are written as

A rule ends a literal at any of the three quotes, not only at the one it began with. So what is
extracted is the whole of a literal exactly if no quote of another kind stands in it.
-/

namespace ImportAtlas.Clean

open Pattern ImportRule

open scoped Text.AlongRun

/-- Whether a statement of a form creates a dependency when the program runs. -/
def Form.loads : Form → Bool
  | .types _ | .allTypes | .listTypes _ => false
  | _ => true

/-- A dependency on a module that is named by a literal, written on one line. -/
inductive LiteralUse where
  /-- A statement with a keyword. -/
  | statement (form : Form) (oneLine : '\n' ∉ form.head) (loads : form.loads)
  /-- A call of the older loader. -/
  | require

/-- A dependency as written with a literal. -/
def LiteralUse.text : LiteralUse → List Char → List Char
  | statement form _ _, literal => form.head ++ (literal ++ [';'])
  | require, literal => Loader.require.name.toList ++ '(' :: (literal ++ [')', ';'])

section Static

variable {rule : ImportRule} {form : Form} {specifier : Literal} {left s right : List Char}
  {gs : List (List Char)}

/-- A statement on one line opens no call. -/
theorem staysQuiet_static (hline : '\n' ∉ form.head) :
    StaysQuiet (form.head ++ (specifier.text ++ [';'])) := by
  intro c hc
  constructor
  · rintro rfl
    simp [(isHead_head form).noCall, paren_notMem_literal] at hc
  · rintro rfl
    have htail : '\n' ∉ specifier.text ++ [';'] := newline_notMem_tailText specifier none
    exact (List.mem_append.mp hc).elim hline htail

/-- A rule that matches in a statement on one line matches at its start, takes its specifier and comes
no earlier than the rule of its kind. -/
theorem fits_of_line (hline : '\n' ∉ form.head) (hrule : rule ∈ importRules)
    (hs : rule.pattern.Accepts left s right gs)
    (htext : left ++ (s ++ right) = form.head ++ (specifier.text ++ [';'])) :
    left = [] ∧ gs = [specifier.inner] ∧
      rank (Statement.static form specifier none).kind ≤ rank rule.kind := by
  have hquiet : StaysQuiet (left ++ (s ++ right)) := htext ▸ staysQuiet_static hline
  cases ha : rule.anchored with
  | true =>
    obtain ⟨hnewline, -⟩ := opens_of_anchored hrule ha hs
    cases hlast : left.getLast? with
    | some c =>
      rw [hlast, Option.all_some, beq_iff_eq] at hnewline
      exact absurd hnewline (hquiet c (List.mem_append_left _ (List.mem_of_getLast? hlast))).2
    | none =>
      obtain rfl := List.getLast?_eq_none_iff.mp hlast
      obtain ⟨hkeyword, hopens⟩ := opens_of_static hrule ha hs htext
      obtain ⟨hgroups, after, left', -, hafter, htail⟩ := literal_of_static hrule ha hs htext
      refine ⟨rfl, hgroups, rank_le_of_opens hkeyword hopens fun heq => ?_⟩
      rw [if_pos heq] at htail
      have hnone : after ++ right = attributesText none ++ ';' :: [] := hafter
      exact (after_of_attributeClause htail hnone).1
  | false =>
    obtain ⟨w, -, before, after, left', rfl, -⟩ := accepts_call hrule ha hs
    exact absurd rfl (hquiet '(' (by simp)).1

/-- In a statement on one line, the statement is found with its specifier and nothing else. -/
theorem findImports_line (form : Form) (hline : '\n' ∉ form.head) (specifier : Literal) :
    ∃ stop, findImports (form.head ++ (specifier.text ++ [';'])) =
      [⟨String.ofList specifier.inner, (Statement.static form specifier none).kind, 0, stop,
        (Statement.static form specifier none).skip⟩] := by
  obtain ⟨rule, hrule, hkind, -, haccepts⟩ := isAccepted_static form specifier none
  obtain ⟨gs, hgs⟩ := haccepts [';']
  have hconstruct : (Statement.static form specifier none).construct ++ [';'] =
      form.head ++ (specifier.text ++ [';']) := by
    rw [construct_static]
    simp [attributesText]
  obtain ⟨m, hm, hle, -⟩ :=
    exists_mem_findAll (advances_of_mem_importRules rule hrule) (isSome_matchAfter hgs)
  have hm : m ∈ rule.pattern.findAll (form.head ++ (specifier.text ++ [';'])) := hconstruct ▸ hm
  have hfits {rule' : ImportRule} {m' : Pattern.Match} (hrule' : rule' ∈ importRules)
      (hm' : m' ∈ rule'.pattern.findAll (form.head ++ (specifier.text ++ [';']))) :
      m'.start = 0 ∧ m'.groups = [specifier.inner] ∧
        rank (Statement.static form specifier none).kind ≤ rank rule'.kind := by
    obtain ⟨left, right, htext, hmatch⟩ := matchAfter_of_mem_findAll hm'
    obtain ⟨s, right, rfl, hs, hstart, -⟩ := accepts_of_matchAfter hmatch
    obtain ⟨rfl, hgroups, hrank⟩ := fits_of_line hline hrule' hs htext.symm
    exact ⟨hstart, hgroups, hrank⟩
  obtain ⟨hstart, hgroups, -⟩ := hfits hrule hm
  refine ⟨m.stop, ?_⟩
  rw [findImports_eq_singleton hrule hm (visible_of_start hstart) fun rule' hrule' m' hm' _ =>
    ⟨(hfits hrule' hm').1.trans hstart.symm, hkind ▸ (hfits hrule' hm').2.2⟩]
  rw [ImportMatch.ofMatch, hgroups, hkind, hstart, skip_eq hrule hkind]
  rfl

end Static

/-- A specifier that is extracted holds no quote. -/
theorem not_isQuote_of_extracted {text chars : List Char} {external : Bool}
    (h : (extractImports text external).map ImportMatch.specifier = [String.ofList chars]) :
    ∀ c ∈ chars, ¬ isQuote c := by
  obtain ⟨item, hitem, hspecifier⟩ : ∃ item ∈ extractImports text external,
      item.specifier = String.ofList chars :=
    List.mem_map.mp (h ▸ List.mem_singleton_self _)
  intro c hc
  have hquoted := isQuotedIn_of_mem_extractImports hitem
  exact (hquoted.plain c (by rwa [hspecifier, String.toList_ofList])).1

/-- From a dependency on one line that is written with a literal, exactly what is between the quotes
of the literal is extracted if and only if no quote stands there. -/
theorem extractImports_literal (use : LiteralUse) {q : Char} (hq : isQuote q) {chars : List Char}
    (hne : chars ≠ []) (hplain : ∀ c ∈ chars, c ≠ '\n' ∧ c ≠ '(')
    (hfixed : ¬ ['$', '\x7b'] <:+: chars) :
    (extractImports (use.text (q :: (chars ++ [q]))) true).map ImportMatch.specifier =
        [String.ofList chars] ↔ ∀ c ∈ chars, ¬ isQuote c := by
  refine ⟨not_isQuote_of_extracted, fun hquotes => ?_⟩
  have hcontent : ∀ c ∈ chars, inSpecifier c ∧ c ≠ '(' := fun c hc =>
    ⟨by simp [inSpecifier, hquotes c hc, (hplain c hc).1], (hplain c hc).2⟩
  let specifier : Literal := ⟨q, chars, hq, hne, hcontent, hfixed⟩
  cases use with
  | statement form oneLine loads =>
    obtain ⟨stop, hfound⟩ := findImports_line form oneLine specifier
    have hskip : (Statement.static form specifier none).skip = false := by
      cases form <;> first | rfl | cases loads
    rw [hskip] at hfound
    change (extractImports (form.head ++ (specifier.text ++ [';'])) true).map _ = _
    rw [extractImports, hfound]
    rfl
  | require =>
    have htail : StaysQuiet [';'] := by simp [StaysQuiet]
    exact @extractImports_of_isPlain .require [] specifier [';'] htail rfl (fun heq => by cases heq)
      true rfl

/-- A default import of a literal without other quotes. -/
theorem extractImports_literal_default :
    let form : Form := .bindings (.one (.default
      ⟨['x'], by decide, by decide, by decide, by decide⟩))
    let use : LiteralUse := .statement form (by decide) rfl
    use.text "'./a'".toList = "import x from './a';".toList ∧
      (extractImports (use.text "'./a'".toList) true).map ImportMatch.specifier = ["./a"] := by
  intro form use
  refine ⟨by decide, ?_⟩
  exact (@extractImports_literal use '\x27' rfl "./a".toList (by decide) (by decide) (by decide)).mpr
    (by decide)

/-- Not every literal is extracted whole: an apostrophe ends one that double quotes began. -/
theorem not_forall_extractImports_literal :
    ¬ ∀ (use : LiteralUse) (q : Char) (chars : List Char), isQuote q → chars ≠ [] →
      (∀ c ∈ chars, c ≠ q ∧ c ≠ '\\' ∧ c ≠ '\n' ∧ c ≠ '(') → ¬ ['$', '\x7b'] <:+: chars →
        (extractImports (use.text (q :: (chars ++ [q]))) true).map ImportMatch.specifier =
          [String.ofList chars] := by
  intro h
  let form : Form := .bindings (.one (.default
    ⟨['x'], by decide, by decide, by decide, by decide⟩))
  have himport := h (.statement form (by decide) rfl) '\x22' "./it's".toList rfl (by decide)
    (by decide) (by decide)
  revert himport
  decide +kernel

end ImportAtlas.Clean
