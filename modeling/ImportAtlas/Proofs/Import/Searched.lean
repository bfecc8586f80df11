import ImportAtlas.Proofs.Import.Windows
import ImportAtlas.Proofs.Search.Spans

/-!
# What the search shows of a text

The search pattern takes one alternative at a place and goes on behind its match, while the rules are
matched one by one. A construct may therefore begin in the middle of what the search matched, but
never outside of it: no line on which a construct begins is left out of the windows.
-/

namespace ImportAtlas

/-- A construct of a text begins in a span of a window that the search reports, and the window holds
the whole line on which the construct begins. -/
theorem exists_searchWindow_of_mem_findImports (path : Path) {text : List Char} {item : ImportMatch}
    (h : item ∈ findImports text) :
    ∃ w ∈ searchWindows importSearchPattern path text, ∃ start, w.IsAt path text start ∧
      (∃ span ∈ w.spans, (start : Int) + span.1 ≤ item.offset ∧
        (item.offset : Int) < start + span.2) ∧
      start ≤ lineStart text item.offset ∧
      lineStop text item.offset ≤ start + w.text.length := by
  obtain ⟨rule, hrule, m, hm, rfl⟩ := isConstruct_of_mem_findImports h
  obtain ⟨m', hm', hstart, hstop⟩ := exists_mem_findAll_importSearchPattern hrule hm
  have hlt : m'.start < m'.stop := Nat.lt_of_le_of_lt hstart hstop
  obtain ⟨s, hs, hspan⟩ := exists_span_of_mem_findNonempty
    (List.mem_filter.mpr ⟨hm', by simpa using hlt⟩)
  have hwithin := (encloses_of_mem_matchedStretches hs).within _ hspan
  have hisAt := isAt_window hs path
  have hlength := length_text_window hs path
  have hbounds := bounds_of_mem_matchedStretches hs
  have hoffset : (ImportMatch.ofMatch rule m).offset = m.start := rfl
  rw [hoffset]
  refine ⟨s.window path text, List.mem_map_of_mem hs, s.start, hisAt, ?_, ?_, ?_⟩
  · refine ⟨((m'.start : Int) - s.start, (m'.stop : Int) - s.start),
      List.mem_map_of_mem (f := fun span => ((span.1 : Int) - s.start, (span.2 : Int) - s.start))
        hspan, ?_, ?_⟩
    · omega
    · omega
  · exact le_lineStart hisAt.beginsLine (by omega) (by omega)
  · rw [hlength]
    exact lineStop_le_of_endsLine (encloses_of_mem_matchedStretches hs).endsLine (by omega) hbounds.2

/-- A construct that begins in the middle of a match of the search, a commented call that reaches
over the end of its line, is shown by it. -/
theorem exists_searchWindow_of_commented_call :
    let text := "// see import(\nimport \x7b\n  a,\n\x7d from './x';\n".toList
    let item : ImportMatch := ⟨"./x", .namedImport, 15, 41, false⟩
    item ∈ findImports text ∧
      ∃ w ∈ searchWindows importSearchPattern ⟨.relative, ["main.ts"]⟩ text, ∃ start,
        w.IsAt ⟨.relative, ["main.ts"]⟩ text start ∧
        (∃ span ∈ w.spans, (start : Int) + span.1 ≤ item.offset ∧
          (item.offset : Int) < start + span.2) ∧
        start ≤ lineStart text item.offset ∧
        lineStop text item.offset ≤ start + w.text.length := by
  intro text item
  have hmem : item ∈ findImports text := by decide +kernel
  exact ⟨hmem, exists_searchWindow_of_mem_findImports _ hmem⟩

end ImportAtlas
