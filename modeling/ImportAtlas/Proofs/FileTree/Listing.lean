import Mathlib.Data.String.Basic
import ImportAtlas.Proofs.FileTree.Places

/-!
# What a listing holds

A listing of a folder consists of the files below it that are not hidden, whose folders are all entered
and that the globs select, in ascending order of the names on their way. A folder keeps its entries in
ascending order of their names, so that going through folders depth first visits the files in the order
of these lists of names, which is not the order of the path texts: a dot comes before a slash.
-/

namespace ImportAtlas

/-- The text of names below a root. -/
def relativeText (names : List String) : List Char := ['/'].intercalate (names.map String.toList)

/-- A file below a folder is one to list: no name on its way is hidden, no folder on its way is passed
over, and the globs select it. -/
structure ScanGlobs.Wants (globs : ScanGlobs) (folder : Entry) (names : List String) : Prop where
  isFile : ∃ content, folder.find? names = some (.file content)
  visible : ∀ name ∈ names, ¬ isHidden name
  entered : ∀ n, 0 < n → n < names.length →
    matchesAny globs.excludes (relativeText (names.take n) ++ ['/']) = .ok false
  included : matchesAny globs.includes (relativeText names) = .ok true
  notExcluded : matchesAny globs.excludes (relativeText names) = .ok false

namespace Entry

mutual

/-- Whether all folders at and below an entry have their entries in ascending order. -/
def isOrdered : Entry → Bool
  | .file _ => true
  | .folder entries => isOrderedIn entries
termination_by structural e => e

/-- Whether all folders at and below a named entry have their entries in ascending order. -/
def isOrderedAt : String × Entry → Bool
  | (_, e) => isOrdered e
termination_by structural named => named

/-- Whether entries are in ascending order, and those of all folders among and below them. -/
def isOrderedIn : List (String × Entry) → Bool
  | [] => true
  | named :: rest =>
    isOrderedAt named && rest.all (fun other => named.1 < other.1) && isOrderedIn rest
termination_by structural entries => entries

end

/-- Entries are in order if the first is before all others. -/
theorem isOrderedIn_cons {name : String} {e : Entry} {rest : List (String × Entry)} :
    isOrderedIn ((name, e) :: rest) ↔
      e.isOrdered ∧ (∀ other ∈ rest, name < other.1) ∧ isOrderedIn rest := by
  simp [isOrderedIn, isOrderedAt, and_assoc]

/-- An entry of an ordered folder is ordered. -/
theorem isOrdered_of_lookup {entries : List (String × Entry)} {name : String} {e : Entry}
    (hentries : isOrderedIn entries) (h : entries.lookup name = some e) : e.isOrdered := by
  induction entries with
  | nil => cases h
  | cons named entries ih =>
    obtain ⟨own, child⟩ := named
    obtain ⟨hchild, -, hrest⟩ := isOrderedIn_cons.mp hentries
    rw [List.lookup_cons] at h
    split at h
    · cases h
      exact hchild
    · exact ih hrest h

/-- What names lead to in an ordered tree is ordered. -/
theorem isOrdered_find? {e found : Entry} {names : List String} (he : e.isOrdered)
    (h : e.find? names = some found) : found.isOrdered :=
  find?_induction (motive := fun e => e.isOrdered)
    (fun hfolder hlookup => isOrdered_of_lookup (by rwa [isOrdered] at hfolder) hlookup) he h

section Order

variable {entries : List (String × Entry)} {name : String} {e new : Entry}

/-- Setting the entry of a name adds no other name. -/
theorem fst_of_mem_setChild {other : String × Entry} (h : other ∈ setChild name e entries) :
    other.1 = name ∨ other ∈ entries := by
  induction entries with
  | nil => exact .inl (by rw [List.mem_singleton.mp h])
  | cons named entries ih =>
    obtain ⟨own, child⟩ := named
    rw [setChild] at h
    split at h
    · rcases List.mem_cons.mp h with rfl | h
      · exact .inl rfl
      · exact .inr (List.mem_cons_of_mem _ h)
    split at h
    · rcases List.mem_cons.mp h with rfl | h
      · exact .inl rfl
      · exact .inr h
    · rcases List.mem_cons.mp h with rfl | h
      · exact .inr List.mem_cons_self
      · exact (ih h).imp_right (List.mem_cons_of_mem _)

/-- Setting the entry of a name keeps entries in order. -/
theorem isOrderedIn_setChild (he : e.isOrdered) (h : isOrderedIn entries) :
    isOrderedIn (setChild name e entries) := by
  induction entries with
  | nil => exact isOrderedIn_cons.mpr ⟨he, nofun, rfl⟩
  | cons named entries ih =>
    obtain ⟨own, child⟩ := named
    obtain ⟨hchild, hbefore, hrest⟩ := isOrderedIn_cons.mp h
    rw [setChild]
    split
    · next heq => exact isOrderedIn_cons.mpr ⟨he, heq ▸ hbefore, hrest⟩
    split
    · next hlt =>
      refine isOrderedIn_cons.mpr ⟨he, fun other hother => ?_, h⟩
      rcases List.mem_cons.mp hother with rfl | hother
      · exact hlt
      · exact hlt.trans (hbefore other hother)
    · next hne hnlt =>
      refine isOrderedIn_cons.mpr ⟨hchild, fun other hother => ?_, ih hrest⟩
      rcases fst_of_mem_setChild hother with heq | hother
      · exact heq ▸ lt_of_le_of_ne (not_lt.mp hnlt) (Ne.symm hne)
      · exact hbefore other hother

/-- Putting an entry into an ordered one keeps it ordered. -/
theorem isOrdered_put (hnew : new.isOrdered) (he : e.isOrdered) (names : List String) :
    (put new names e).isOrdered := by
  induction names generalizing e with
  | nil => exact hnew
  | cons name names ih =>
    cases e with
    | file content => exact he
    | folder entries =>
      rw [isOrdered] at he
      rw [put, isOrdered]
      refine isOrderedIn_setChild (ih ?_) he
      cases hlookup : entries.lookup name with
      | none => rfl
      | some child => exact isOrdered_of_lookup he hlookup

/-- Leaving out entries keeps the others in order. -/
theorem isOrderedIn_filter (keep : String × Entry → Bool) (h : isOrderedIn entries) :
    isOrderedIn (entries.filter keep) := by
  induction entries with
  | nil => rfl
  | cons named entries ih =>
    obtain ⟨own, child⟩ := named
    obtain ⟨hchild, hbefore, hrest⟩ := isOrderedIn_cons.mp h
    rw [List.filter_cons]
    split
    · exact isOrderedIn_cons.mpr
        ⟨hchild, fun other hother => hbefore other (List.mem_of_mem_filter hother), ih hrest⟩
    · exact ih hrest

/-- Removing an entry from an ordered one keeps it ordered. -/
theorem isOrdered_remove (he : e.isOrdered) (names : List String) : (remove names e).isOrdered := by
  induction names generalizing e with
  | nil => exact he
  | cons name names ih =>
    cases e with
    | file content => cases names <;> exact he
    | folder entries =>
      rw [isOrdered] at he
      cases names with
      | nil => exact isOrderedIn_filter _ he
      | cons next names =>
        rw [remove]
        split
        · next child hlookup => exact isOrderedIn_setChild (ih (isOrdered_of_lookup he hlookup)) he
        · exact he
        · exact nofun

end Order

end Entry

/-- The tree without any file is ordered, and what is written, made and removed keeps it ordered. -/
theorem FileTree.isOrdered_root (tree : FileTree) (h : tree.root.isOrdered) (p : Path) (content : List UInt8) :
    FileTree.empty.root.isOrdered ∧ (tree.write p content).root.isOrdered ∧
      (tree.addFolder p).root.isOrdered ∧ (tree.remove p).root.isOrdered := by
  refine ⟨rfl, Entry.isOrdered_put rfl h _, ?_, Entry.isOrdered_remove h _⟩
  rw [addFolder]
  split
  · exact h
  · exact Entry.isOrdered_put rfl h _

/-- What names add to the text of a path. -/
def behindPath (names : List String) : List Char := names.flatMap fun name => '/' :: name.toList

/-- The text of names is that of the first with the others behind it. -/
theorem relativeText_cons (name : String) (names : List String) :
    relativeText (name :: names) = name.toList ++ behindPath names := by
  induction names generalizing name with
  | nil => simp [relativeText, behindPath, List.intercalate]
  | cons next names ih =>
    have hnext : relativeText (name :: next :: names) =
        name.toList ++ '/' :: relativeText (next :: names) := by
      simp [relativeText, List.intercalate]
    rw [hnext, ih, behindPath, behindPath, List.flatMap_cons]
    rfl

/-- Globs that can be compiled decide for every name. -/
theorem exists_decision {patterns : List String} (h : (GlobSet.ofPatterns patterns).isOk) :
    ∃ decide : List Char → Bool, ∀ name, matchesAny patterns name = .ok (decide name) := by
  cases hset : GlobSet.ofPatterns patterns with
  | error cause => simp [hset, Except.isOk, Except.toBool] at h
  | ok set =>
    cases patterns with
    | nil => exact ⟨fun _ => false, fun name => rfl⟩
    | cons first others =>
      refine ⟨set.selects, fun name => ?_⟩
      rw [matchesAny, if_neg (by simp), hset]
      rfl

namespace Entry

/-- A file at or below an entry is one to list, given the text of the path to the entry and what the
globs decide. -/
structure Picks (included excluded : List Char → Bool) (path : List Char) (e : Entry)
    (names : List String) : Prop where
  isFile : ∃ content, e.find? names = some (.file content)
  visible : ∀ name ∈ names, ¬ isHidden name
  entered : ∀ n < names.length, excluded (path ++ behindPath (names.take n) ++ ['/']) = false
  included : included (path ++ behindPath names) = true
  notExcluded : excluded (path ++ behindPath names) = false

section Listing

variable {globs : ScanGlobs} {included excluded : List Char → Bool} {path : List Char}
  {entries : List (String × Entry)} {name : String} {names : List String}

/-- A file itself is listed if the globs select it. -/
theorem picks_file {content : List UInt8} : Picks included excluded path (.file content) names ↔
    names = [] ∧ included path = true ∧ excluded path = false := by
  constructor
  · rintro ⟨⟨content, hfile⟩, -, -, hincluded, hexcluded⟩
    cases names with
    | nil => exact ⟨rfl, by simpa [behindPath] using hincluded, by simpa [behindPath] using hexcluded⟩
    | cons name names => cases hfile
  · rintro ⟨rfl, hincluded, hexcluded⟩
    exact ⟨⟨content, rfl⟩, nofun, nofun, by simpa [behindPath] using hincluded,
      by simpa [behindPath] using hexcluded⟩

/-- A file below a folder is listed if the folder is entered and the file is listed from the entry on
its way. -/
theorem picks_folder : Picks included excluded path (.folder entries) names ↔
    excluded (path ++ ['/']) = false ∧ ∃ name rest e, names = name :: rest ∧
      entries.lookup name = some e ∧ ¬ isHidden name ∧
      Picks included excluded (path ++ '/' :: name.toList) e rest := by
  have hpath (name : String) (rest : List String) : path ++ behindPath (name :: rest) =
      path ++ '/' :: name.toList ++ behindPath rest := by
    simp [behindPath]
  constructor
  · rintro ⟨⟨content, hfile⟩, hvisible, hentered, hincluded, hexcluded⟩
    cases names with
    | nil => cases hfile
    | cons name rest =>
      have hfolder : excluded (path ++ ['/']) = false := by
        simpa [behindPath] using hentered 0 (Nat.succ_pos _)
      obtain ⟨e, hlookup, hfound⟩ := Option.bind_eq_some_iff.mp hfile
      obtain ⟨hname, hrest⟩ := List.forall_mem_cons.mp hvisible
      refine ⟨hfolder, name, rest, e, rfl, hlookup, hname, ⟨content, hfound⟩, hrest, ?_, ?_, ?_⟩
      · intro n hn
        rw [← hpath]
        exact hentered (n + 1) (Nat.succ_lt_succ hn)
      · rwa [← hpath]
      · rwa [← hpath]
  · rintro ⟨hfolder, name, rest, e, rfl, hlookup, hname, ⟨content, hfound⟩, hrest, hentered, hincluded,
      hexcluded⟩
    refine ⟨⟨content, ?_⟩, List.forall_mem_cons.mpr ⟨hname, hrest⟩, ?_, ?_, ?_⟩
    · exact Option.bind_eq_some_iff.mpr ⟨e, hlookup, hfound⟩
    · intro n hn
      cases n with
      | zero => simpa [behindPath] using hfolder
      | succ n =>
        rw [List.take_succ_cons, hpath]
        exact hentered n (Nat.lt_of_succ_lt_succ hn)
    · rwa [hpath]
    · rwa [hpath]

mutual

/-- The files that are listed at or below an entry. -/
theorem listFrom_spec (hincludes : ∀ name, matchesAny globs.includes name = .ok (included name))
    (hexcludes : ∀ name, matchesAny globs.excludes name = .ok (excluded name)) :
    ∀ (e : Entry) (path : String), e.isOrdered → ∃ files, listFrom globs path e = .ok files ∧
      files.Pairwise (· < ·) ∧ ∀ names, names ∈ files ↔ Picks included excluded path.toList e names
  | .file content, path, _ => by
    have hlists : globs.lists path =
        .ok (included path.toList && !excluded path.toList) := by
      simp only [ScanGlobs.lists, hincludes, hexcludes, bind, Except.bind, pure, Except.pure]
      cases included path.toList <;> rfl
    refine ⟨if included path.toList && !excluded path.toList then [[]] else [], ?_, ?_, fun names => ?_⟩
    · simp only [listFrom, hlists, bind, Except.bind, pure, Except.pure]
    · split <;> simp
    · rw [picks_file]
      cases included path.toList <;> cases excluded path.toList <;> simp
  | .folder entries, path, horder => by
    have hprunes : globs.prunes path = .ok (excluded (path.toList ++ ['/'])) := by
      rw [ScanGlobs.prunes, hexcludes, String.toList_append]
      rfl
    obtain ⟨files, hlisted, hascending, hmem⟩ :=
      listEntries_spec hincludes hexcludes entries (path ++ "/") (by rwa [isOrdered] at horder)
    cases hpruned : excluded (path.toList ++ ['/']) with
    | true =>
      refine ⟨[], ?_, .nil, fun names => ?_⟩
      · rw [listFrom, hprunes, hpruned]
        rfl
      · rw [picks_folder, hpruned]
        simp
    | false =>
      refine ⟨files, ?_, hascending, fun names => ?_⟩
      · rw [listFrom, hprunes, hpruned]
        exact hlisted
      · have hbase (name : String) : (path ++ "/").toList ++ name.toList =
            path.toList ++ '/' :: name.toList := by
          rw [String.toList_append, List.append_assoc]
          rfl
        rw [hmem, picks_folder]
        simp only [hbase, hpruned, true_and]
termination_by structural e => e

/-- The files that are listed at or below a named entry. -/
theorem listNamed_spec (hincludes : ∀ name, matchesAny globs.includes name = .ok (included name))
    (hexcludes : ∀ name, matchesAny globs.excludes name = .ok (excluded name)) :
    ∀ (named : String × Entry) (base : String), isOrderedAt named →
      ∃ files, listNamed globs base named = .ok files ∧ files.Pairwise (· < ·) ∧
        ∀ names, names ∈ files ↔ ∃ rest, names = named.1 :: rest ∧ ¬ isHidden named.1 ∧
          Picks included excluded (base.toList ++ named.1.toList) named.2 rest
  | (name, e), base, horder => by
    obtain ⟨files, hlisted, hascending, hmem⟩ :=
      listFrom_spec hincludes hexcludes e (base ++ name) (by rwa [isOrderedAt] at horder)
    rw [String.toList_append] at hmem
    by_cases hhidden : isHidden name
    · refine ⟨[], ?_, .nil, fun names => ?_⟩
      · rw [listNamed, if_pos hhidden]
        rfl
      · simp [hhidden]
    · refine ⟨files.map (name :: ·), ?_, ?_, fun names => ?_⟩
      · rw [listNamed, if_neg hhidden, hlisted]
        rfl
      · rw [List.pairwise_map]
        exact hascending.imp fun h => List.cons_lt_cons_iff.mpr (.inr ⟨rfl, h⟩)
      · rw [List.mem_map]
        constructor
        · rintro ⟨rest, hrest, rfl⟩
          exact ⟨rest, rfl, hhidden, (hmem rest).mp hrest⟩
        · rintro ⟨rest, rfl, -, hpicks⟩
          exact ⟨rest, (hmem rest).mpr hpicks, rfl⟩
termination_by structural named => named

/-- The files that are listed among entries and below them. -/
theorem listEntries_spec (hincludes : ∀ name, matchesAny globs.includes name = .ok (included name))
    (hexcludes : ∀ name, matchesAny globs.excludes name = .ok (excluded name)) :
    ∀ (entries : List (String × Entry)) (base : String), isOrderedIn entries →
      ∃ files, listEntries globs base entries = .ok files ∧ files.Pairwise (· < ·) ∧
        ∀ names, names ∈ files ↔ ∃ name rest e, names = name :: rest ∧
          entries.lookup name = some e ∧ ¬ isHidden name ∧
          Picks included excluded (base.toList ++ name.toList) e rest
  | [], base, _ => ⟨[], rfl, .nil, fun names => by simp⟩
  | (own, child) :: others, base, horder => by
    obtain ⟨hchild, hbefore, hothers⟩ := isOrderedIn_cons.mp horder
    obtain ⟨first, hfirst, hascendingFirst, hmemFirst⟩ :=
      listNamed_spec hincludes hexcludes (own, child) base (by rwa [isOrderedAt])
    obtain ⟨rest, hrest, hascendingRest, hmemRest⟩ :=
      listEntries_spec hincludes hexcludes others base hothers
    have hbehind {name : String} {e : Entry} (h : others.lookup name = some e) : own < name := by
      obtain ⟨front, back, heq, -⟩ := List.lookup_eq_some_iff.mp h
      exact hbefore (name, e) (by simp [heq])
    refine ⟨first ++ rest, ?_, ?_, fun names => ?_⟩
    · rw [listEntries, hfirst, hrest]
      rfl
    · refine List.pairwise_append.mpr ⟨hascendingFirst, hascendingRest, fun left hleft right hright => ?_⟩
      obtain ⟨tail, rfl, -⟩ := (hmemFirst left).mp hleft
      obtain ⟨name, tail', e, rfl, hlookup, -⟩ := (hmemRest right).mp hright
      exact List.cons_lt_cons_iff.mpr (.inl (hbehind hlookup))
    · rw [List.mem_append, hmemFirst, hmemRest]
      constructor
      · rintro (⟨tail, rfl, hvisible, hpicks⟩ | ⟨name, tail, e, rfl, hlookup, hvisible, hpicks⟩)
        · exact ⟨own, tail, child, rfl, by simp, hvisible, hpicks⟩
        · have hne : (name == own) = false := beq_false_of_ne (hbehind hlookup).ne'
          exact ⟨name, tail, e, rfl, by simp [List.lookup_cons, hne, hlookup], hvisible, hpicks⟩
      · rintro ⟨name, tail, e, rfl, hlookup, hvisible, hpicks⟩
        rw [List.lookup_cons] at hlookup
        split at hlookup
        · next heq =>
          cases hlookup
          obtain rfl := eq_of_beq heq
          exact .inl ⟨tail, rfl, hvisible, hpicks⟩
        · exact .inr ⟨name, tail, e, rfl, hlookup, hvisible, hpicks⟩
termination_by structural entries => entries

end

/-- The file to list below a folder, by the entry that it is at or below. -/
theorem wants_folder (hincludes : ∀ name, matchesAny globs.includes name = .ok (included name))
    (hexcludes : ∀ name, matchesAny globs.excludes name = .ok (excluded name)) :
    globs.Wants (.folder entries) names ↔ ∃ name rest e, names = name :: rest ∧
      entries.lookup name = some e ∧ ¬ isHidden name ∧
      Picks included excluded name.toList e rest := by
  constructor
  · rintro ⟨⟨content, hfile⟩, hvisible, hentered, hincluded, hexcluded⟩
    cases names with
    | nil => cases hfile
    | cons name rest =>
      obtain ⟨e, hlookup, hfound⟩ := Option.bind_eq_some_iff.mp hfile
      obtain ⟨hname, hrest⟩ := List.forall_mem_cons.mp hvisible
      rw [relativeText_cons, hincludes, Except.ok.injEq] at hincluded
      rw [relativeText_cons, hexcludes, Except.ok.injEq] at hexcluded
      refine ⟨name, rest, e, rfl, hlookup, hname, ⟨content, hfound⟩, hrest, fun n hn => ?_, hincluded,
        hexcluded⟩
      have hfolder := hentered (n + 1) (Nat.succ_pos n) (Nat.succ_lt_succ hn)
      rwa [List.take_succ_cons, relativeText_cons, hexcludes, Except.ok.injEq] at hfolder
  · rintro ⟨name, rest, e, rfl, hlookup, hname, ⟨content, hfound⟩, hrest, hentered, hincluded, hexcluded⟩
    refine ⟨⟨content, Option.bind_eq_some_iff.mpr ⟨e, hlookup, hfound⟩⟩,
      List.forall_mem_cons.mpr ⟨hname, hrest⟩, fun n hpos hn => ?_, ?_, ?_⟩
    · obtain ⟨n, rfl⟩ := Nat.exists_eq_succ_of_ne_zero hpos.ne'
      rw [List.take_succ_cons, relativeText_cons, hexcludes, hentered n (Nat.lt_of_succ_lt_succ hn)]
    · rw [relativeText_cons, hincludes, hincluded]
    · rw [relativeText_cons, hexcludes, hexcluded]

end Listing

end Entry

/-- What a listing of a folder holds where the globs of a scan decide for every name. -/
theorem FileTree.exists_list {tree : FileTree} {root : Path} {entries : List (String × Entry)}
    (htree : tree.root.isOrdered) (hroot : tree.find? root = some (.folder entries)) {globs : ScanGlobs}
    {included excluded : List Char → Bool}
    (hincluded : ∀ name, matchesAny globs.includes name = .ok (included name))
    (hexcluded : ∀ name, matchesAny globs.excludes name = .ok (excluded name)) :
    ∃ files : List (List String),
      tree.list root globs = .ok (files.map fun names => ⟨root.anchor, root.names ++ names⟩) ∧
      files.Pairwise (· < ·) ∧ ∀ names, names ∈ files ↔ globs.Wants (.folder entries) names := by
  have hentries : Entry.isOrderedIn entries := by
    obtain ⟨place, hplace⟩ := exists_find?_root hroot
    have hfolder := Entry.isOrdered_find? htree hplace
    rwa [Entry.isOrdered] at hfolder
  obtain ⟨files, hlisted, hascending, hmem⟩ :=
    Entry.listEntries_spec hincluded hexcluded entries "" hentries
  refine ⟨files, ?_, hascending, fun names => ?_⟩
  · rw [list, hroot]
    dsimp only
    rw [hlisted]
  · rw [hmem, Entry.wants_folder hincluded hexcluded]
    rfl

end ImportAtlas
