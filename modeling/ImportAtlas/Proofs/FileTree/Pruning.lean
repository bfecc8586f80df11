import ImportAtlas.Proofs.FileTree.Listing
import ImportAtlas.Proofs.Glob.Continuing

/-!
# Passing over folders

A folder that the exclude globs select is not entered. Where these globs take nothing out again and hold no
brackets, they select every file below such a folder too, so that nothing is missed: the files of a listing
are those that the globs select one by one.
-/

namespace ImportAtlas

/-- The text of names in two parts has a slash between the texts of the parts. -/
theorem relativeText_append {front back : List String} (hfront : front ≠ []) (hback : back ≠ []) :
    relativeText (front ++ back) = relativeText front ++ '/' :: relativeText back := by
  cases front with
  | nil => exact absurd rfl hfront
  | cons name front =>
    cases back with
    | nil => exact absurd rfl hback
    | cons next back =>
      rw [List.cons_append, relativeText_cons, relativeText_cons, relativeText_cons]
      simp [behindPath]

/-- Different names below a root make different paths. -/
theorem Path.below_injective (root : Path) :
    Function.Injective fun names => Path.mk root.anchor (root.names ++ names) :=
  fun _ _ heq => List.append_cancel_left (Path.mk.inj heq).2

/-- A file that the globs select is in folders that are entered if the exclude globs are plain. -/
theorem ScanGlobs.wants_iff_of_plain {globs : ScanGlobs}
    (hexcludes : (GlobSet.ofPatterns globs.excludes).isOk)
    (hplain : ∀ p ∈ globs.excludes, ∀ text ∈ Glob.expandBraces p.toList, Glob.IsPlain text)
    {folder : Entry} {names : List String} :
    globs.Wants folder names ↔ (∃ content, folder.find? names = some (.file content)) ∧
      (∀ name ∈ names, ¬ isHidden name) ∧
      matchesAny globs.includes (relativeText names) = .ok true ∧
      matchesAny globs.excludes (relativeText names) = .ok false := by
  constructor
  · rintro ⟨hfile, hvisible, -, hincluded, hexcluded⟩
    exact ⟨hfile, hvisible, hincluded, hexcluded⟩
  · rintro ⟨hfile, hvisible, hincluded, hexcluded⟩
    refine ⟨hfile, hvisible, fun n hpos hn => ?_, hincluded, hexcluded⟩
    obtain ⟨excluded, hdecides⟩ := exists_decision hexcludes
    have hsplit : relativeText names = relativeText (names.take n) ++ '/' :: relativeText (names.drop n) := by
      have hfront : names.take n ≠ [] := List.ne_nil_of_length_pos (by rw [List.length_take]; omega)
      have hback : names.drop n ≠ [] := List.ne_nil_of_length_pos (by rw [List.length_drop]; omega)
      rw [← relativeText_append hfront hback, List.take_append_drop]
    cases hfolder : excluded (relativeText (names.take n) ++ ['/']) with
    | false => rw [hdecides, hfolder]
    | true =>
      have hbelow := Glob.matchesAny_below hplain (by rw [hdecides, hfolder]) (relativeText (names.drop n))
      rw [← hsplit, hexcluded] at hbelow
      cases hbelow

end ImportAtlas
