import Mathlib.Data.List.Basic
import ImportAtlas.FileTree.Basic

/-!
# Asking about paths

A question about a path has an answer exactly if the path is not too long to be looked up. So the
search for a file among some paths fails exactly if it comes to a path that is too long before it
comes to a file. A path is too long at the latest if its last name is and its folder is there.
-/

namespace ImportAtlas.FileTree

variable {tree : FileTree} {question : FileTree → Path → Bool} {p : Path}

/-- A path that is too long has no answer. -/
theorem ask_of_isTooLong (h : tree.isTooLong p) : tree.ask question p = .error ⟨p⟩ := if_pos h

/-- A path that is not too long has its answer. -/
theorem ask_of_not_isTooLong (h : ¬ tree.isTooLong p) :
    tree.ask question p = .ok (question tree p) := if_neg h

/-- A path is passed by in the search for a file if it is neither too long nor a file. -/
def PassesBy (tree : FileTree) (p : Path) : Prop := ¬ tree.isTooLong p ∧ ¬ tree.isFile p

/-- What a search for a file comes to after the paths that it passes by. -/
def Reaches (tree : FileTree) (paths : List Path) (p : Path) : Prop :=
  ∃ before after, paths = before ++ p :: after ∧ ∀ other ∈ before, tree.PassesBy other

/-- A search comes to the first path, and past it to what it comes to among the others. -/
theorem reaches_cons_iff {first : Path} {rest : List Path} :
    tree.Reaches (first :: rest) p ↔ first = p ∨ tree.PassesBy first ∧ tree.Reaches rest p := by
  constructor
  · rintro ⟨before, after, hsplit, hbefore⟩
    cases before with
    | nil => exact .inl (List.cons.inj hsplit).1
    | cons other before =>
      obtain ⟨rfl, hrest⟩ := List.cons.inj hsplit
      rw [List.forall_mem_cons] at hbefore
      exact .inr ⟨hbefore.1, before, after, hrest, hbefore.2⟩
  · rintro (rfl | ⟨hfirst, before, after, rfl, hbefore⟩)
    · exact ⟨[], rest, rfl, by simp⟩
    · exact ⟨first :: before, after, rfl, List.forall_mem_cons.mpr ⟨hfirst, hbefore⟩⟩

/-- A search among one path comes to no other. -/
theorem eq_of_reaches_singleton {only : Path} (h : tree.Reaches [only] p) : only = p := by
  rcases reaches_cons_iff.mp h with heq | ⟨-, before, after, hsplit, -⟩
  · exact heq
  · simp at hsplit

/-- The search for a file goes on behind the paths that it passes by. -/
theorem firstFile_append {before : List Path} (h : ∀ p ∈ before, tree.PassesBy p)
    (after : List Path) : tree.firstFile (before ++ after) = tree.firstFile after := by
  induction before with
  | nil => rfl
  | cons first before ih =>
    obtain ⟨⟨hshort, hfile⟩, hrest⟩ := List.forall_mem_cons.mp h
    rw [List.cons_append, firstFile, ask_of_not_isTooLong hshort, eq_false_of_ne_true hfile]
    exact ih hrest

/-- The search for a file has no result if it passes by all the paths. -/
theorem firstFile_of_passesBy {paths : List Path} (h : ∀ p ∈ paths, tree.PassesBy p) :
    tree.firstFile paths = .ok none := by
  have hall := firstFile_append h []
  rwa [List.append_nil] at hall

/-- The search for a file has the file that it comes to as its result. -/
theorem firstFile_of_reaches {paths : List Path} (h : tree.Reaches paths p)
    (hshort : ¬ tree.isTooLong p) (hfile : tree.isFile p) :
    tree.firstFile paths = .ok (some p) := by
  obtain ⟨before, after, rfl, hbefore⟩ := h
  rw [firstFile_append hbefore, firstFile, ask_of_not_isTooLong hshort, hfile]
  rfl

/-- The search for a file fails exactly if it comes to a path that is too long. -/
theorem firstFile_eq_error_iff {paths : List Path} {cause : TooLong} :
    tree.firstFile paths = .error cause ↔
      tree.Reaches paths cause.path ∧ tree.isTooLong cause.path := by
  induction paths with
  | nil => simp [firstFile, Reaches]
  | cons first rest ih =>
    rw [firstFile, reaches_cons_iff]
    by_cases hlong : tree.isTooLong first
    · rw [ask_of_isTooLong hlong]
      change Except.error _ = Except.error cause ↔ _
      have hstop : ¬ tree.PassesBy first := fun hpass => hpass.1 hlong
      simp only [Except.error.injEq, hstop, false_and, or_false]
      exact ⟨fun heq => heq ▸ ⟨rfl, hlong⟩, fun h => congrArg TooLong.mk h.1⟩
    · rw [ask_of_not_isTooLong hlong]
      have hne : ¬ (first = cause.path ∧ tree.isTooLong cause.path) := fun h => hlong (h.1 ▸ h.2)
      by_cases hfile : tree.isFile first
      · have hstop : ¬ tree.PassesBy first := fun hpass => hpass.2 hfile
        simpa [hfile, hstop, bind, Except.bind, pure, Except.pure] using hne
      · have hpass : tree.PassesBy first := ⟨hlong, hfile⟩
        simp only [hfile, bind, Except.bind, hpass, true_and, or_and_right, hne, false_or]
        exact ih

/-- Names that lead to a folder lead on to a name that is too long. -/
theorem meetsLongName_concat {start names reached : List String} {name : String}
    (hfollow : tree.follow start names = some reached)
    (hfolder : ((tree.root.find? reached).map Entry.isFolder).getD false)
    (hlong : longestName < (Text.encode name.toList).length) :
    tree.meetsLongName start (names ++ [name]) := by
  induction names generalizing start with
  | nil =>
    have hname : name ≠ ".." := by
      rintro rfl
      exact absurd hlong (by decide)
    rw [follow] at hfollow
    split at hfollow
    · cases hfollow
      rw [List.nil_append, meetsLongName, if_pos hfolder, if_neg hname, decide_eq_true hlong,
        Bool.true_or]
    · cases hfollow
  | cons first names ih =>
    rw [follow] at hfollow
    rw [List.cons_append, meetsLongName]
    split at hfollow
    · next hstart =>
      rw [if_pos hstart]
      split at hfollow
      · next hup => rw [if_pos hup, ih hfollow]
      · next hdown => rw [if_neg hdown, ih hfollow, Bool.or_true]
    · cases hfollow

/-- A path is too long if its last name is and its folder is there. -/
theorem isTooLong_concat {anchor : Anchor} {names : List String} {name : String}
    (hfolder : tree.isFolder ⟨anchor, names⟩) (hsound : Path.isSound ⟨anchor, names ++ [name]⟩)
    (hlong : longestName < (Text.encode name.toList).length) :
    tree.isTooLong ⟨anchor, names ++ [name]⟩ := by
  rw [isFolder, find?] at hfolder
  split at hfolder
  · cases hfollow : tree.follow [] names with
    | none => simp [hfollow] at hfolder
    | some reached =>
      rw [hfollow, Option.bind_some] at hfolder
      rw [isTooLong, hsound, meetsLongName_concat hfollow hfolder hlong, Bool.or_true,
        Bool.and_true]
  · cases hfolder

end ImportAtlas.FileTree
