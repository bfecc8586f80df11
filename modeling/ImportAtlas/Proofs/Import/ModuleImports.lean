import ImportAtlas.Proofs.Import.Greedy
import ImportAtlas.Proofs.Import.WrittenStatements

/-!
# The imports of a clean module

No match crosses from one statement of a clean module into the next, so that a module is searched
statement by statement. In a single statement all matches begin where the construct does, and the
rule of its kind is the earliest that has one. So one import is found for each statement, under its
kind and with its specifier, and nothing else.
-/

namespace ImportAtlas

/-- In an empty text, nothing is found. -/
theorem findImports_nil : findImports [] = [] := by
  refine List.eq_nil_iff_forall_not_mem.mpr fun item hitem => ?_
  have hbounds := (isConstruct_of_mem_findImports hitem).bounds
  exact Nat.not_lt_zero _ (Nat.lt_of_lt_of_le hbounds.1 hbounds.2)

/-- Where a text is cut at the start of a line and no match runs over the cut, what is found in it is
what is found in the two parts. -/
theorem findImports_append {front back : List Char} (hline : front.getLast?.all (· == '\n'))
    (hsealed : ∀ rule ∈ importRules, rule.pattern.Sealed (front ++ back) front.length) :
    findImports (front ++ back) =
      findImports front ++ (findImports back).map (ImportMatch.shift front.length) := by
  let first : Stretch := ⟨0, front.length, []⟩
  let second : Stretch := ⟨front.length, (front ++ back).length, []⟩
  have hlength : front.length ≤ (front ++ back).length := by simp
  have hwhole : first.IsWhole (front ++ back) :=
    ⟨Nat.zero_le _, hlength, rfl, fun _ _ _ _ hlt => absurd hlt (Nat.not_lt_zero _), hsealed⟩
  have hwhole' : second.IsWhole (front ++ back) :=
    ⟨hlength, Nat.le_refl _, by rwa [BeginsLine, List.take_left], hsealed,
      fun _ _ _ hm _ => Pattern.stop_le_of_mem_findAll hm⟩
  have hfirst := filter_findImports_window hwhole
  have hsecond := filter_findImports_window hwhole'
  have hfront : first.part (front ++ back) = front := List.take_left
  have hback : second.part (front ++ back) = back := by
    rw [Stretch.part, List.take_length, List.drop_left]
  have hshift : ImportMatch.shift 0 = id := funext fun item => by simp [ImportMatch.shift]
  rw [hfront, hshift, List.map_id] at hfirst
  rw [hback] at hsecond
  have hascending := findImports_ascending (front ++ back)
  rw [← hfirst, ← hsecond]
  refine ascending_ext ImportMatch.offset hascending
    (List.pairwise_append.mpr ⟨hascending.filter _, hascending.filter _, fun a ha b hb => ?_⟩)
    fun item => ?_
  · have ha' := Stretch.holds_iff.mp (List.mem_filter.mp ha).2
    have hb' := Stretch.holds_iff.mp (List.mem_filter.mp hb).2
    exact Nat.lt_of_lt_of_le ha'.2 hb'.1
  · rw [List.mem_append, List.mem_filter, List.mem_filter, Stretch.holds_iff, Stretch.holds_iff]
    constructor
    · intro hitem
      have hbounds := (isConstruct_of_mem_findImports hitem).bounds
      by_cases hlt : item.offset < front.length
      · exact .inl ⟨hitem, Nat.zero_le _, hlt⟩
      · exact .inr ⟨hitem, Nat.not_lt.mp hlt, Nat.lt_of_lt_of_le hbounds.1 hbounds.2⟩
    · rintro (⟨hitem, -⟩ | ⟨hitem, -⟩) <;> exact hitem

namespace Clean

open Pattern ImportRule

open scoped Text.AlongRun

/-- The kinds of construct that create no dependency. -/
def skippedKinds : List ImportKind := [.typeImport, .typeReexport, .dynamicExpression]

/-- A statement is skipped if its kind is. -/
theorem skip_statement (statement : Statement) : statement.skip = decide (statement.kind ∈ skippedKinds) := by
  rcases statement with ⟨form, specifier, attributes⟩ | ⟨bound, loading⟩
  · cases form with
    | bindings clause => rcases attributes with - | attributes <;> rcases clause with (- | - | -) | - <;> rfl
    | _ => rfl
  · cases loading <;> rfl

/-- The rule of the kind of a statement is one for constructs that are skipped if the statement is. -/
theorem skip_eq {rule : ImportRule} (hrule : rule ∈ importRules) {statement : Statement}
    (hkind : rule.kind = statement.kind) : rule.skip = statement.skip := by
  have hskip : ∀ rule ∈ importRules, rule.skip = decide (rule.kind ∈ skippedKinds) := by decide
  rw [hskip rule hrule, skip_statement, hkind]

section Matches

variable {statement : Statement} {rest : List Char} {rule : ImportRule} {m : Pattern.Match}

/-- A match of a rule that begins in a statement stands where the construct does and ends in the
statement; the rule of the kind of the statement reports what is to be found there. -/
theorem match_fits (hrule : rule ∈ importRules)
    (hm : m ∈ rule.pattern.findAll (statement.text ++ rest))
    (hlt : m.start < statement.text.length) (hcalls : CallsOpen (statement.text ++ rest)) :
    m.start = statement.found.offset ∧ m.stop ≤ statement.text.length ∧
      rank statement.kind ≤ rank rule.kind ∧
        (rule.kind = statement.kind → .ofMatch rule m = statement.found) := by
  obtain ⟨left, right, htext, hmatch⟩ := matchAfter_of_mem_findAll hm
  obtain ⟨s, behind, rfl, hs, hstart, hstop⟩ := accepts_of_matchAfter hmatch
  rw [hstart] at hlt
  obtain ⟨hleft, hrank, hlength, hown⟩ := fits_of_accepts hrule hs htext.symm hlt hcalls
  refine ⟨hstart.trans (congrArg _ hleft), hstop ▸ hlength, hrank, fun hkind => ?_⟩
  obtain ⟨rfl, hspecifier⟩ := hown hkind
  rw [ImportMatch.ofMatch, hspecifier, hkind, hstart, hstop, skip_eq hrule hkind, hleft]
  rfl

/-- No match runs over the end of a statement. -/
theorem sealed_statement (hrule : rule ∈ importRules) (hcalls : CallsOpen (statement.text ++ rest)) :
    rule.pattern.Sealed (statement.text ++ rest) statement.text.length :=
  fun _ hm hlt => (match_fits hrule hm hlt hcalls).2.1

/-- A match in a single statement begins where the construct does. -/
theorem match_fits_alone (hrule : rule ∈ importRules) (hm : m ∈ rule.pattern.findAll statement.text) :
    m.start = statement.found.offset ∧ rank statement.kind ≤ rank rule.kind ∧
      (rule.kind = statement.kind → .ofMatch rule m = statement.found) := by
  have hcalls := callsOpen_append statement (callsOpen_moduleText [])
  have hlt := start_lt_stop_of_mem_findAll (advances_of_mem_importRules rule hrule) hm
  have hle := stop_le_of_mem_findAll hm
  rw [← List.append_nil statement.text] at hm
  obtain ⟨hstart, -, hrank, hown⟩ := match_fits hrule hm (by omega) hcalls
  exact ⟨hstart, hrank, hown⟩

end Matches

/-- In a single statement, the construct is found and nothing else. -/
theorem findImports_statement (statement : Statement) :
    findImports statement.text = [statement.found] := by
  obtain ⟨rule, hrule, hkind, hvisible, haccepts⟩ := isAccepted statement
  obtain ⟨right, htext⟩ := exists_text_eq statement
  obtain ⟨gs, hgs⟩ := haccepts right
  obtain ⟨m, hm, -⟩ := exists_mem_findAll (advances_of_mem_importRules rule hrule) (isSome_matchAfter hgs)
  rw [← htext] at hm
  obtain ⟨hstart, -, hown⟩ := match_fits_alone hrule hm
  have hshown : ¬ rule.isHidden statement.text m := by
    rw [ImportRule.isHidden, hstart, Bool.and_eq_true, Bool.not_eq_true']
    rintro ⟨hcall, hhidden⟩
    rcases hvisible with ha | hvisible
    · exact Bool.false_ne_true (hcall.symm.trans ha)
    · exact Bool.false_ne_true (hvisible.symm.trans hhidden)
  -- Whatever else matches begins where the construct does, and no rule of a lower rank matches.
  have hfirst : ∀ rule' ∈ importRules, ∀ m' ∈ rule'.pattern.findAll statement.text,
      ¬ rule'.isHidden statement.text m' → m'.start = m.start ∧ rank rule.kind ≤ rank rule'.kind := by
    intro rule' hrule' m' hm' _
    obtain ⟨hstart', hrank, -⟩ := match_fits_alone hrule' hm'
    exact ⟨hstart'.trans hstart.symm, hkind ▸ hrank⟩
  rw [findImports_eq_singleton hrule hm hshown hfirst, hown hkind]

/-- In a clean module, one import is found for each statement, under its kind, with its specifier and
at its place, and nothing else. -/
theorem findImports_moduleText (statements : List Statement) :
    findImports (moduleText statements) = foundIn statements := by
  induction statements with
  | nil => exact findImports_nil
  | cons statement rest ih =>
    have hcalls : CallsOpen (statement.text ++ moduleText rest) := callsOpen_moduleText (statement :: rest)
    obtain ⟨body, hbody⟩ := exists_concat statement
    have hline : statement.text.getLast?.all (· == '\n') := by
      rw [hbody, List.getLast?_concat]
      rfl
    have hsplit : moduleText (statement :: rest) = statement.text ++ moduleText rest := rfl
    rw [hsplit, findImports_append hline fun _ hrule => sealed_statement hrule hcalls,
      findImports_statement, ih]
    rfl

/-- What is to be found in a module, as its statements have it. -/
theorem map_foundIn (statements : List Statement) (keep : List Char → Bool → Bool) :
    ((foundIn statements).filter fun item => keep item.specifier.toList item.skip).map
        (fun item => (item.specifier, item.kind)) =
      (statements.filter fun statement => keep statement.specifier statement.skip).map
        fun statement => (String.ofList statement.specifier, statement.kind) := by
  induction statements with
  | nil => rfl
  | cons statement rest ih =>
    have hshift : ((foundIn rest).map (ImportMatch.shift statement.text.length)).filter
        (fun item => keep item.specifier.toList item.skip) =
          ((foundIn rest).filter fun item => keep item.specifier.toList item.skip).map
            (ImportMatch.shift statement.text.length) := List.filter_map
    have hfound : keep statement.found.specifier.toList statement.found.skip =
        keep statement.specifier statement.skip := by
      rw [Statement.found, String.toList_ofList]
    rw [foundIn, List.filter_cons, List.filter_cons, hfound, hshift]
    split
    · rw [List.map_cons, List.map_cons, List.map_map, ← ih]
      rfl
    · rw [List.map_map, ← ih]
      rfl

/-- What is found in a clean module are its statements, each under its kind and with its specifier,
one after the other and at their places. What is extracted from it are the specifiers of the
statements that are not skipped, in order; without those of packages, if they are not asked for. -/
theorem extractImports_moduleText (statements : List Statement) :
    findImports (moduleText statements) = foundIn statements ∧
      ∀ external, (extractImports (moduleText statements) external).map
          (fun item => (item.specifier, item.kind)) =
        (statements.filter fun statement =>
          !statement.skip && (external || isLocalSpecifier statement.specifier)).map
            fun statement => (String.ofList statement.specifier, statement.kind) := by
  refine ⟨findImports_moduleText statements, fun external => ?_⟩
  rw [extractImports, findImports_moduleText]
  exact map_foundIn statements fun specifier skip =>
    !skip && (external || isLocalSpecifier specifier)

example :
    let bound : Name := ⟨"a".toList, by decide, by decide, by decide, by decide⟩
    let specifier : Literal := ⟨'\x27', "./x".toList, by decide, by decide, by decide, by decide⟩
    moduleText [.static (.bindings (.both bound (.star bound))) specifier (some .options),
        .call bound (.load specifier), .call bound (.computed bound)] =
      ("import a, * as a from './x' with \x7b type: 'json' \x7d;\n" ++
        "const a = await import('./x');\nconst a = await import(a);\n").toList := by decide

end Clean

end ImportAtlas
