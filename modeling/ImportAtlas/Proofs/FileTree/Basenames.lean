import ImportAtlas.Proofs.FileTree.Pruning
import ImportAtlas.Proofs.Glob.NameGlobs

/-!
# Files selected by their own names

An include glob of one name is matched against the whole path of a file. It selects a file by the name of
the file or by that of a folder on the way to it, and it does not reach beyond a folder whose name holds a
newline.
-/

namespace ImportAtlas

open Glob

/-- Globs select a folder on a way through folders, and no name before it holds a newline. -/
def SelectFolderOn (globs : List String) (folders : List String) : Prop :=
  ∃ front folder back, folders = front ++ folder :: back ∧ (∀ name ∈ front, '\n' ∉ name.toList) ∧
    matchesAny globs (folder.toList ++ ['/']) = .ok true

/-- The first of several folders is selected, or it holds no newline and one of the others is selected. -/
theorem selectFolderOn_cons {globs : List String} {folder : String} {folders : List String} :
    SelectFolderOn globs (folder :: folders) ↔ matchesAny globs (folder.toList ++ ['/']) = .ok true ∨
      '\n' ∉ folder.toList ∧ SelectFolderOn globs folders := by
  constructor
  · rintro ⟨front, found, back, heq, hfront, hfound⟩
    cases front with
    | nil =>
      obtain ⟨rfl, -⟩ := List.cons.inj heq
      exact .inl hfound
    | cons name front =>
      obtain ⟨rfl, rfl⟩ := List.cons.inj heq
      obtain ⟨hname, hfront⟩ := List.forall_mem_cons.mp hfront
      exact .inr ⟨hname, front, found, back, rfl, hfront, hfound⟩
  · rintro (hfound | ⟨hname, front, found, back, rfl, hfront, hfound⟩)
    · exact ⟨[], folder, folders, rfl, nofun, hfound⟩
    · exact ⟨folder :: front, found, back, rfl, List.forall_mem_cons.mpr ⟨hname, hfront⟩, hfound⟩

/-- What begins with a name of a file system does not begin with the mark of the root. -/
theorem relativeName_append_of_isName {name : String} (hname : Path.IsName name) (rest : List Char) :
    relativeName (name.toList ++ rest) = name.toList ++ rest := by
  obtain ⟨⟨hne, hdot, hslash⟩, -⟩ := hname
  rw [Ne, ← String.toList_inj] at hne hdot
  revert hne hdot hslash
  generalize name.toList = chars
  intro hne hdot hslash
  cases chars with
  | nil => exact absurd rfl hne
  | cons c chars =>
    have hc : c ≠ '/' := fun heq => hslash (heq ▸ List.mem_cons_self)
    cases chars with
    | nil =>
      have hmark : c ≠ '.' := fun heq => hdot (by rw [heq]; rfl)
      cases rest with
      | nil => unfold relativeName; split <;> simp_all
      | cons d rest =>
        simp only [List.cons_append, List.nil_append]
        rw [relativeName_cons_cons, if_neg hc, if_neg fun h => hmark h.1]
    | cons d chars =>
      have hd : d ≠ '/' := fun heq => hslash (heq ▸ List.mem_cons_of_mem _ List.mem_cons_self)
      simp only [List.cons_append]
      rw [relativeName_cons_cons, if_neg hc, if_neg fun h => hd h.2]

/-- A name of a file system is not empty. -/
theorem toList_ne_nil_of_isName {name : String} (hname : Path.IsName name) : name.toList ≠ [] :=
  fun hnil => hname.1.1 (String.toList_inj.mp hnil)

/-- The text of names of a file system begins neither with a slash nor with the mark of the root. -/
theorem relativeText_of_isName {names : List String} (hne : names ≠ [])
    (hnames : ∀ name ∈ names, Path.IsName name) :
    (relativeText names).head? ≠ some '/' ∧ relativeName (relativeText names) = relativeText names := by
  cases names with
  | nil => exact absurd rfl hne
  | cons name names =>
    have hname := hnames name List.mem_cons_self
    rw [relativeText_cons]
    refine ⟨fun hhead => ?_, relativeName_append_of_isName hname _⟩
    rw [List.head?_append_of_ne_nil _ (toList_ne_nil_of_isName hname)] at hhead
    exact hname.1.2.2 (List.mem_of_mem_head? hhead)

section NameGlob

variable {p : String} {folders : List String} {name : String}

/-- A glob of one name selects a path below a folder if it selects the folder, or if the folder's name holds
no newline and it selects the path from there. -/
theorem matchesAny_relativeText_cons (hp : IsNameGlob p.toList) {folder : String}
    (hfolder : Path.IsName folder) {names : List String} (hne : names ≠ [])
    (hnames : ∀ name ∈ names, Path.IsName name) :
    matchesAny [p] (relativeText (folder :: names)) = .ok true ↔
      matchesAny [p] (folder.toList ++ ['/']) = .ok true ∨
        '\n' ∉ folder.toList ∧ matchesAny [p] (relativeText names) = .ok true := by
  obtain ⟨pattern, hpattern, -, hmatches⟩ := hp.exists_matchesAny
  obtain ⟨hhead, hsame⟩ := relativeText_of_isName hne hnames
  have hsplit : relativeText (folder :: names) = folder.toList ++ '/' :: relativeText names := by
    rw [← List.singleton_append, relativeText_append (List.cons_ne_nil folder []) hne]
    simp [relativeText]
  simp only [hmatches, Except.ok.injEq, hsplit, relativeName_append_of_isName hfolder, hsame]
  exact hpattern.isSome_search_append (toList_ne_nil_of_isName hfolder) hfolder.1.2.2 hhead

/-- A glob of one name selects a path if it selects a folder on its way before any newline, or if there is
no newline before the last name and it selects that name. -/
theorem matchesAny_relativeText (hp : IsNameGlob p.toList) (hfolders : ∀ folder ∈ folders, Path.IsName folder)
    (hname : Path.IsName name) : matchesAny [p] (relativeText (folders ++ [name])) = .ok true ↔
      SelectFolderOn [p] folders ∨
        (∀ folder ∈ folders, '\n' ∉ folder.toList) ∧ matchesAny [p] name.toList = .ok true := by
  induction folders with
  | nil =>
    have hnone : ¬ SelectFolderOn [p] [] := by
      rintro ⟨front, folder, back, heq, -⟩
      cases front <;> cases heq
    simp [hnone, relativeText]
  | cons folder folders ih =>
    obtain ⟨hfolder, hfolders⟩ := List.forall_mem_cons.mp hfolders
    have hnames : ∀ other ∈ folders ++ [name], Path.IsName other := fun other hother =>
      (List.mem_append.mp hother).elim (hfolders other) fun hlast => List.mem_singleton.mp hlast ▸ hname
    rw [List.cons_append, matchesAny_relativeText_cons hp hfolder (by simp) hnames, ih hfolders,
      selectFolderOn_cons, List.forall_mem_cons, and_or_left, or_assoc, and_assoc]

/-- A glob of one name treats a path as it treats the last name exactly if it selects the name wherever it
selects a folder on the way, and if no newline on the way stands between it and the name. -/
theorem matchesAny_relativeText_eq_iff (hp : IsNameGlob p.toList)
    (hfolders : ∀ folder ∈ folders, Path.IsName folder) (hname : Path.IsName name) :
    matchesAny [p] (relativeText (folders ++ [name])) = matchesAny [p] name.toList ↔
      (SelectFolderOn [p] folders → matchesAny [p] name.toList = .ok true) ∧
        (matchesAny [p] name.toList = .ok true →
          SelectFolderOn [p] folders ∨ ∀ folder ∈ folders, '\n' ∉ folder.toList) := by
  obtain ⟨pattern, -, -, hmatches⟩ := hp.exists_matchesAny
  have hsame {left right : List Char} : matchesAny [p] left = matchesAny [p] right ↔
      (matchesAny [p] left = .ok true ↔ matchesAny [p] right = .ok true) := by
    rw [hmatches, hmatches, Except.ok.injEq, Except.ok.injEq, Except.ok.injEq, Bool.eq_iff_iff]
  rw [hsame, matchesAny_relativeText hp hfolders hname]
  constructor
  · intro h
    exact ⟨fun hfolder => h.mp (.inl hfolder), fun hown => (h.mpr hown).imp_right And.left⟩
  · rintro ⟨hfolder, hown⟩
    exact ⟨fun h => h.elim hfolder And.right, fun h => (hown h).imp_right fun hlines => ⟨hlines, h⟩⟩

end NameGlob

end ImportAtlas
