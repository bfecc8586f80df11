import ImportAtlas.Proofs.FileTree.Places

/-!
# Writing one file

Two trees may be the same but for what one file holds, as they are when different contents are
written to one path. Names are then followed to the same places in both, the same paths are files,
and any other file holds the same.
-/

namespace ImportAtlas

namespace Entry

/-- The first entry comes before the others. -/
theorem lookup_cons_eq (name : String) (e : Entry) (entries : List (String × Entry))
    (other : String) : List.lookup other ((name, e) :: entries) =
      if other = name then some e else entries.lookup other := by
  rw [List.lookup_cons]
  by_cases h : other = name
  · simp [h]
  · simp [h, beq_false_of_ne h]

/-- The entries of a folder after one of them was set. -/
theorem lookup_setChild (name : String) (e : Entry) (entries : List (String × Entry))
    (other : String) : (setChild name e entries).lookup other =
      if other = name then some e else entries.lookup other := by
  induction entries with
  | nil => rw [setChild, lookup_cons_eq]
  | cons named entries ih =>
    obtain ⟨own, old⟩ := named
    rw [setChild]
    by_cases heq : name = own
    · subst heq
      rw [if_pos rfl, lookup_cons_eq, lookup_cons_eq]
      split <;> rfl
    · rw [if_neg heq]
      split
      · rw [lookup_cons_eq]
      · rw [lookup_cons_eq, lookup_cons_eq, ih]
        by_cases h : other = own
        · rw [if_pos h, if_pos h, if_neg (by rw [h]; exact Ne.symm heq)]
        · rw [if_neg h, if_neg h]

/-- Entries with as many files count for the same in a folder. -/
theorem fileCountIn_setChild {e e' : Entry} (h : e.fileCount = e'.fileCount) (name : String)
    (entries : List (String × Entry)) :
    fileCountIn (setChild name e entries) = fileCountIn (setChild name e' entries) := by
  have hcons (rest : List (String × Entry)) :
      fileCountIn ((name, e) :: rest) = fileCountIn ((name, e') :: rest) :=
    congrArg (· + fileCountIn rest) h
  induction entries with
  | nil => exact hcons []
  | cons named entries ih =>
    obtain ⟨own, old⟩ := named
    rw [setChild, setChild]
    split
    · exact hcons entries
    · split
      · exact hcons ((own, old) :: entries)
      · rw [fileCountIn, fileCountIn, ih]

/-- Two entries are the same but for what the file holds that the names of a place lead to. -/
structure SameBut (place : List String) (e e' : Entry) : Prop where
  fileCount_eq : e.fileCount = e'.fileCount
  map_isFolder_eq : ∀ names, (e.find? names).map isFolder = (e'.find? names).map isFolder
  holds_iff : ∀ names ≠ place, ∀ content,
    e.find? names = some (.file content) ↔ e'.find? names = some (.file content)

namespace SameBut

variable {place : List String} {e e' : Entry}

/-- An entry is the same as itself. -/
theorem refl (place : List String) (e : Entry) : SameBut place e e :=
  ⟨rfl, fun _ => rfl, fun _ _ _ => Iff.rfl⟩

/-- Two files are the same but for what they hold. -/
theorem file (content content' : List UInt8) : SameBut [] (.file content) (.file content') where
  fileCount_eq := rfl
  map_isFolder_eq names := by cases names <;> rfl
  holds_iff names hnames held := by
    cases names with
    | nil => exact absurd rfl hnames
    | cons name names => exact Iff.rfl

/-- Folders are the same where they hold entries that are. -/
theorem setChild (h : SameBut place e e') (name : String) (entries : List (String × Entry)) :
    SameBut (name :: place) (.folder (setChild name e entries))
      (.folder (setChild name e' entries)) where
  fileCount_eq := fileCountIn_setChild h.fileCount_eq name entries
  map_isFolder_eq names := by
    cases names with
    | nil => rfl
    | cons first names =>
      rw [find?, find?, child?, child?, lookup_setChild, lookup_setChild]
      split
      · exact h.map_isFolder_eq names
      · rfl
  holds_iff names hnames held := by
    cases names with
    | nil => simp [find?]
    | cons first names =>
      rw [find?, find?, child?, child?, lookup_setChild, lookup_setChild]
      split
      · next heq =>
        exact h.holds_iff names (fun hrest => hnames (by rw [heq, hrest])) held
      · rfl

/-- Different contents at one place make no other difference. -/
theorem put (content content' : List UInt8) (place : List String) (e : Entry) :
    SameBut place (put (.file content) place e) (put (.file content') place e) := by
  induction place generalizing e with
  | nil => exact file content content'
  | cons name place ih =>
    cases e with
    | file held => exact refl _ _
    | folder entries => exact (ih _).setChild name entries

end SameBut

end Entry

namespace FileTree

variable {tree tree' : FileTree} {place : List String}

/-- Different contents at one path make no other difference. -/
theorem sameBut_write (tree : FileTree) (p : Path) (content content' : List UInt8) :
    (tree.write p content).root.SameBut p.normal.names (tree.write p content').root :=
  Entry.SameBut.put content content' p.normal.names tree.root

section Agreement

variable (h : tree.root.SameBut place tree'.root)

include h

/-- Names are followed to the same places. -/
theorem follow_eq (start names : List String) : tree.follow start names = tree'.follow start names := by
  induction names generalizing start with
  | nil =>
    have hisSome := congrArg Option.isSome (h.map_isFolder_eq start)
    rw [Option.isSome_map, Option.isSome_map] at hisSome
    rw [follow, follow, hisSome]
  | cons name names ih => rw [follow, follow, h.map_isFolder_eq, ih, ih]

/-- The same paths lead to folders, and to files. -/
theorem map_isFolder_eq (p : Path) :
    (tree.find? p).map Entry.isFolder = (tree'.find? p).map Entry.isFolder := by
  rw [find?, find?, follow_eq h]
  split
  · cases tree'.follow [] p.names with
    | none => rfl
    | some reached => exact h.map_isFolder_eq reached
  · rfl

/-- The same paths are files. -/
theorem isFile_eq (p : Path) : tree.isFile p = tree'.isFile p := by
  have hmap := congrArg (Option.map not) (map_isFolder_eq h p)
  rw [Option.map_map, Option.map_map] at hmap
  exact congrArg (Option.getD · false) hmap

/-- The same names are too long to be looked up. -/
theorem meetsLongName_eq (start names : List String) :
    tree.meetsLongName start names = tree'.meetsLongName start names := by
  induction names generalizing start with
  | nil => rfl
  | cons name names ih =>
    rw [meetsLongName, meetsLongName, h.map_isFolder_eq, ih, ih]

/-- The same paths are too long to be looked up. -/
theorem isTooLong_eq (p : Path) : tree.isTooLong p = tree'.isTooLong p := by
  rw [isTooLong, isTooLong, meetsLongName_eq h]

/-- Questions that have the same answers are answered alike. -/
theorem ask_eq {question : FileTree → Path → Bool} (hsame : question tree = question tree')
    (p : Path) : tree.ask question p = tree'.ask question p := by
  rw [ask, ask, isTooLong_eq h, hsame]

/-- The same file is found among some paths. -/
theorem firstFile_eq (paths : List Path) : tree.firstFile paths = tree'.firstFile paths := by
  induction paths with
  | nil => rfl
  | cons p rest ih => rw [firstFile, firstFile, ask_eq h (funext (isFile_eq h)), ih]

/-- A normal path to any other place leads to the same content. -/
theorem content?_resolved_eq {p : Path} (hother : p.resolved.names ≠ place) :
    tree.content? p.resolved = tree'.content? p.resolved := by
  have habsolute : p.resolved.isAbsolute := rfl
  rw [content?, content?, isTooLong_eq h, find?, find?, if_pos habsolute, if_pos habsolute,
    follow_eq h]
  congr 1
  cases hfollow : tree'.follow [] p.resolved.names with
  | none => rfl
  | some reached =>
    rw [Option.bind_some, Option.bind_some, eq_of_follow_resolved hfollow]
    have hholds := h.holds_iff p.resolved.names hother
    have hfolders := h.map_isFolder_eq p.resolved.names
    cases hfind : tree.root.find? p.resolved.names with
    | none =>
      rw [hfind, Option.map_none, eq_comm, Option.map_eq_none_iff] at hfolders
      rw [hfolders]
    | some e =>
      cases e with
      | file content => rw [(hholds content).mp hfind]
      | folder entries =>
        cases hfind' : tree'.root.find? p.resolved.names with
        | none => rfl
        | some e' =>
          cases e' with
          | file content => rw [hfind, hfind'] at hfolders; simp [Entry.isFolder] at hfolders
          | folder entries' => rfl

/-- A normal path to any other place leads to the same text. -/
theorem text?_resolved_eq {p : Path} (hother : p.resolved.names ≠ place) :
    tree.text? p.resolved = tree'.text? p.resolved := by
  rw [text?, text?, content?_resolved_eq h hother]

end Agreement

end FileTree

end ImportAtlas
