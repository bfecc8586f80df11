import ImportAtlas.FileTree.Listing
import ImportAtlas.Proofs.Outcome
import ImportAtlas.Proofs.Path.Naming

/-!
# Where paths lead in a tree

A path that leads to an entry leads where its normal form leads. In a tree whose entries have
names as file systems give them, a listing consists of places, so that a listed file and a file
that was asked for by a path can be told apart by where they are.
-/

namespace ImportAtlas

namespace Entry

/-- Names one after the other lead on from where the first of them lead. -/
theorem find?_append (e : Entry) (left right : List String) :
    e.find? (left ++ right) = (e.find? left).bind fun e => e.find? right := by
  induction left generalizing e with
  | nil => rfl
  | cons name left ih =>
    rw [List.cons_append, find?, find?, Option.bind_assoc]
    congr 1
    funext child
    exact ih child

/-- Only a folder has anything below it. -/
theorem isFolder_of_find?_cons {e : Entry} {name : String} {rest : List String}
    (h : (e.find? (name :: rest)).isSome) : e.isFolder := by
  cases e with
  | file content => simp [find?, child?] at h
  | folder entries => rfl

mutual

/-- Whether all entries below an entry have names as a file system gives them. -/
def wellNamed : Entry → Bool
  | .file _ => true
  | .folder entries => wellNamedIn entries
termination_by structural e => e

/-- Whether a named entry and all entries below it have names as a file system gives them. -/
def wellNamedAt : String × Entry → Bool
  | (name, e) => decide (Path.IsName name) && wellNamed e
termination_by structural named => named

/-- Whether entries and all entries below them have names as a file system gives them. -/
def wellNamedIn : List (String × Entry) → Bool
  | [] => true
  | named :: rest => wellNamedAt named && wellNamedIn rest
termination_by structural entries => entries

end

mutual

/-- The names that lead from an entry to a listed file are names of a file system. -/
theorem isName_of_mem_listFrom {globs : ScanGlobs} :
    ∀ {path : String} (e : Entry) {files : List (List String)}, e.wellNamed →
      listFrom globs path e = .ok files → ∀ names ∈ files, ∀ name ∈ names, Path.IsName name
  | path, .file _, files, _, h => by
    intro names hnames name hname
    rw [listFrom] at h
    obtain ⟨listed, -, h⟩ := exists_of_bind_eq_ok h
    cases listed <;> cases h
    · exact absurd hnames List.not_mem_nil
    · rw [List.mem_singleton.mp hnames] at hname
      exact absurd hname List.not_mem_nil
  | path, .folder entries, files, he, h => by
    rw [listFrom] at h
    obtain ⟨pruned, -, h⟩ := exists_of_bind_eq_ok h
    cases pruned with
    | false => exact isName_of_mem_listEntries entries (by rwa [wellNamed] at he) h
    | true =>
      cases h
      intro names hnames
      exact absurd hnames List.not_mem_nil
termination_by structural _ e => e

/-- The names that lead to a listed file at or below a named entry are names of a file system. -/
theorem isName_of_mem_listNamed {globs : ScanGlobs} :
    ∀ {base : String} (named : String × Entry) {files : List (List String)},
      wellNamedAt named → listNamed globs base named = .ok files →
        ∀ names ∈ files, ∀ name ∈ names, Path.IsName name
  | base, (own, e), files, he, h => by
    rw [wellNamedAt, Bool.and_eq_true, decide_eq_true_eq] at he
    rw [listNamed] at h
    split at h
    · cases h
      intro names hnames
      exact absurd hnames List.not_mem_nil
    · obtain ⟨below, hbelow, h⟩ := exists_of_bind_eq_ok h
      cases h
      intro names hnames name hname
      obtain ⟨rest, hrest, rfl⟩ := List.mem_map.mp hnames
      rcases List.mem_cons.mp hname with rfl | hname
      · exact he.1
      · exact isName_of_mem_listFrom e he.2 hbelow rest hrest name hname
termination_by structural _ named => named

/-- The names that lead to a listed file among entries are names of a file system. -/
theorem isName_of_mem_listEntries {globs : ScanGlobs} :
    ∀ {base : String} (entries : List (String × Entry)) {files : List (List String)},
      wellNamedIn entries → listEntries globs base entries = .ok files →
        ∀ names ∈ files, ∀ name ∈ names, Path.IsName name
  | base, [], files, _, h => by
    rw [listEntries, Except.ok.injEq] at h
    subst h
    intro names hnames
    exact absurd hnames List.not_mem_nil
  | base, named :: rest, files, he, h => by
    rw [wellNamedIn, Bool.and_eq_true] at he
    rw [listEntries] at h
    obtain ⟨first, hfirst, h⟩ := exists_of_bind_eq_ok h
    obtain ⟨others, hothers, h⟩ := exists_of_bind_eq_ok h
    cases h
    intro names hnames
    rcases List.mem_append.mp hnames with hnames | hnames
    · exact isName_of_mem_listNamed named he.1 hfirst names hnames
    · exact isName_of_mem_listEntries rest he.2 hothers names hnames
termination_by structural _ entries => entries

end

/-- An entry of a well named folder is well named. -/
theorem wellNamed_of_lookup {entries : List (String × Entry)} {name : String} {e : Entry}
    (hentries : wellNamedIn entries) (h : entries.lookup name = some e) : e.wellNamed := by
  induction entries with
  | nil => simp at h
  | cons named entries ih =>
    rw [wellNamedIn, Bool.and_eq_true] at hentries
    rw [List.lookup_cons] at h
    split at h
    · cases h
      have hnamed := hentries.1
      rw [wellNamedAt, Bool.and_eq_true] at hnamed
      exact hnamed.2
    · exact ih hentries.2 h

/-- What passes from a folder to its entries passes from an entry to all that names lead to. -/
theorem find?_induction {motive : Entry → Prop}
    (inherits : ∀ {entries name child}, motive (.folder entries) →
      entries.lookup name = some child → motive child)
    {e found : Entry} {names : List String} (he : motive e) (h : e.find? names = some found) :
    motive found := by
  induction names generalizing e with
  | nil =>
    cases h
    exact he
  | cons name names ih =>
    rw [find?] at h
    obtain ⟨child, hchild, hrest⟩ := Option.bind_eq_some_iff.mp h
    cases e with
    | file content => cases hchild
    | folder entries => exact ih (inherits he hchild) hrest

/-- What names lead to in a well named tree is well named. -/
theorem wellNamed_find? {e found : Entry} {names : List String} (he : e.wellNamed)
    (h : e.find? names = some found) : found.wellNamed :=
  find?_induction (motive := fun e => e.wellNamed)
    (fun hfolder hlookup => wellNamed_of_lookup (by rwa [wellNamed] at hfolder) hlookup) he h

/-- A name in a well named folder is one of a file system. -/
theorem isName_of_lookup {entries : List (String × Entry)} {name : String} {e : Entry}
    (hentries : wellNamedIn entries) (h : entries.lookup name = some e) : Path.IsName name := by
  induction entries with
  | nil => cases h
  | cons named entries ih =>
    obtain ⟨own, child⟩ := named
    rw [wellNamedIn, wellNamedAt, Bool.and_eq_true, Bool.and_eq_true, decide_eq_true_eq] at hentries
    rw [List.lookup_cons] at h
    split at h
    · next heq => exact eq_of_beq heq ▸ hentries.1.1
    · exact ih hentries.2 h

/-- The names on a way through a well named entry are names of a file system. -/
theorem isName_of_find? {e found : Entry} {names : List String} (he : e.wellNamed)
    (h : e.find? names = some found) : ∀ name ∈ names, Path.IsName name := by
  induction names generalizing e with
  | nil => exact nofun
  | cons name names ih =>
    rw [find?] at h
    obtain ⟨child, hchild, hrest⟩ := Option.bind_eq_some_iff.mp h
    cases e with
    | file content => cases hchild
    | folder entries =>
      rw [wellNamed] at he
      exact List.forall_mem_cons.mpr ⟨isName_of_lookup he hchild, ih (wellNamed_of_lookup he hchild) hrest⟩

end Entry

namespace FileTree

variable {tree : FileTree}

/-- What is in a tree is found from its root. -/
theorem exists_find?_root {p : Path} {e : Entry} (h : tree.find? p = some e) :
    ∃ place, tree.root.find? place = some e := by
  rw [find?] at h
  split at h
  · obtain ⟨place, -, hplace⟩ := Option.bind_eq_some_iff.mp h
    exact ⟨place, hplace⟩
  · cases h

/-- Following names leads to where they lead as text, and there is an entry. -/
theorem follow_eq_foldl {place names reached : List String} (hplace : ".." ∉ place)
    (h : tree.follow place names = some reached) :
    reached = names.foldl (Path.normalStep true) place ∧ (tree.root.find? reached).isSome := by
  induction names generalizing place with
  | nil =>
    rw [follow] at h
    split at h
    · next hfind =>
      cases h
      exact ⟨rfl, hfind⟩
    · cases h
  | cons name names ih =>
    rw [follow] at h
    split at h
    · split at h
      · next hup =>
        have hkept : ".." ∉ place.dropLast := fun hmem =>
          hplace ((List.dropLast_sublist place).subset hmem)
        obtain ⟨hreached, hfind⟩ := ih hkept h
        refine ⟨?_, hfind⟩
        rw [hreached, List.foldl_cons, Path.normalStep, if_neg (by simp [hup])]
        cases hlast : place.getLast? with
        | none => rw [List.getLast?_eq_none_iff.mp hlast]; rfl
        | some last =>
          have hne : last ≠ ".." := fun heq => hplace (heq ▸ List.mem_of_getLast? hlast)
          simp only [hne, if_false]
      · next hdown =>
        have hkept : ".." ∉ place ++ [name] := by simp [hplace, Ne.symm hdown]
        obtain ⟨hreached, hfind⟩ := ih hkept h
        refine ⟨?_, hfind⟩
        rw [hreached, List.foldl_cons, Path.normalStep, if_pos (by simpa using hdown)]
    · cases h

/-- The names of a normal path are followed to no other place. -/
theorem eq_of_follow_resolved {p : Path} {reached : List String}
    (h : tree.follow [] p.resolved.names = some reached) : reached = p.resolved.names := by
  have hdotdot : ".." ∉ p.resolved.names := Path.dotdot_notMem_foldl_normalStep p.names (by simp)
  have hnormal : p.resolved.names.foldl (Path.normalStep true) [] = p.resolved.names :=
    Path.foldl_normalStep true hdotdot []
  exact (follow_eq_foldl List.not_mem_nil h).1.trans hnormal

/-- Names without double dots that lead to an entry are followed one by one. -/
theorem follow_eq_append {place names : List String} (hnames : ".." ∉ names)
    (h : (tree.root.find? (place ++ names)).isSome) :
    tree.follow place names = some (place ++ names) := by
  induction names generalizing place with
  | nil =>
    rw [List.append_nil] at h ⊢
    rw [follow, if_pos h]
  | cons name names ih =>
    rw [List.mem_cons, not_or] at hnames
    have hfolder : ((tree.root.find? place).map Entry.isFolder).getD false := by
      rw [Entry.find?_append] at h
      cases hplace : tree.root.find? place with
      | none => simp [hplace] at h
      | some e =>
        rw [hplace, Option.bind_some] at h
        exact Entry.isFolder_of_find?_cons h
    have happend : place ++ [name] ++ names = place ++ name :: names := by simp
    rw [follow, if_pos hfolder, if_neg (Ne.symm hnames.1), ih hnames.2 (by rwa [happend]), happend]

/-- A path that leads to an entry leads there in its normal form. -/
theorem find?_resolved {p : Path} {e : Entry} (h : tree.find? p = some e) :
    tree.find? p.resolved = some e := by
  have hdotdot : ".." ∉ p.resolved.names := Path.dotdot_notMem_foldl_normalStep p.names (by simp)
  rw [find?] at h
  split at h
  · obtain ⟨reached, hfollow, hentry⟩ := Option.bind_eq_some_iff.mp h
    obtain ⟨hreached, hfind⟩ := follow_eq_foldl List.not_mem_nil hfollow
    have hnames : reached = p.resolved.names := hreached
    rw [hnames] at hfind hentry
    have habsolute : p.resolved.isAbsolute := rfl
    rw [find?, if_pos habsolute, follow_eq_append hdotdot hfind]
    exact hentry
  · cases h

/-- A file is a file at the normal form of its path. -/
theorem isFile_resolved {p : Path} (h : tree.isFile p) : tree.isFile p.resolved := by
  rw [isFile] at h ⊢
  cases hfind : tree.find? p with
  | none => simp [hfind] at h
  | some e => rwa [find?_resolved hfind, ← hfind]

/-- What is listed below a place are places. -/
theorem isPlace_of_mem_list (htree : tree.root.wellNamed) {root : Path} (hroot : root.IsPlace)
    {globs : ScanGlobs} {files : List Path} (h : tree.list root globs = .ok files) :
    ∀ file ∈ files, file.IsPlace := by
  intro file hfile
  rw [list] at h
  split at h
  · next entries hfind =>
    split at h
    · next listed hlisted =>
      cases h
      obtain ⟨names, hnames, rfl⟩ := List.mem_map.mp hfile
      have hfolder : Entry.wellNamed (.folder entries) := by
        obtain ⟨place, hplace⟩ := exists_find?_root hfind
        exact Entry.wellNamed_find? htree hplace
      rw [Entry.wellNamed] at hfolder
      refine ⟨hroot.anchor_eq, fun name hname => ?_⟩
      rcases List.mem_append.mp hname with hname | hname
      · exact hroot.names_isName name hname
      · exact Entry.isName_of_mem_listEntries entries hfolder hlisted names hnames name hname
    · cases h
  · cases h
  · split at h
    · cases h
    · cases h
      exact absurd hfile List.not_mem_nil

end FileTree

end ImportAtlas
