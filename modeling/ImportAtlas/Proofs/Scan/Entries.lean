import ImportAtlas.Proofs.FileTree.Places
import ImportAtlas.Proofs.FileTree.Questions
import ImportAtlas.Proofs.Graph.Scoping
import ImportAtlas.Proofs.Scan.Ingest

/-!
# What is known of an entry

An entry is searched by itself unless it is a module when its turn comes, and it may be a module
only because a file that was read before imports it. The imports of such an entry are missing. A
scan therefore gives an entry its own dependencies exactly if its file was read, by the search
over the root or by itself, or if it has none. An entry that is too long to be looked up ends the
scan.
-/

namespace ImportAtlas

namespace FileTree

/-- The files that a search over a target reads. -/
def scannedFiles (tree : FileTree) (target : Path) (globs : ScanGlobs) :
    Except ListingError (List Path) :=
  if tree.isFile target then .ok [target.resolved]
  else if tree.isFolder target then tree.list target.resolved globs
  else .ok []

/-- A search gives the windows of the files that it reads. -/
theorem search_fst (tree : FileTree) (pattern : Pattern) (target : Path) (globs : ScanGlobs) :
    (tree.search pattern target globs).1 =
      (tree.scannedFiles target globs).map fun files => files.flatMap (tree.searchFile pattern) := by
  rw [search, scannedFiles]
  split
  · simp [Except.map]
  · split
    · rfl
    · simp [Except.map]

/-- What is read below a place are places. -/
theorem isPlace_of_mem_scannedFiles {tree : FileTree} (htree : tree.root.wellNamed) {root : Path}
    (hroot : root.IsPlace) {globs : ScanGlobs} {files : List Path}
    (h : tree.scannedFiles root globs = .ok files) : ∀ file ∈ files, file.IsPlace := by
  rw [scannedFiles, hroot.resolved_eq] at h
  split at h
  · cases h
    intro file hfile
    rwa [List.mem_singleton.mp hfile]
  · split at h
    · exact isPlace_of_mem_list htree hroot h
    · cases h
      intro file hfile
      exact absurd hfile List.not_mem_nil

/-- The passages that a search finds in a file. -/
def passages (tree : FileTree) (file : Path) : List Passage :=
  (tree.searchFile importSearchPattern file).map fun w => ⟨w.path, w.text⟩

/-- A passage that is found in a file tells the file. -/
theorem path_of_mem_passages {tree : FileTree} {file : Path} {passage : Passage}
    (h : passage ∈ tree.passages file) : passage.path = file := by
  obtain ⟨window, hwindow, rfl⟩ := List.mem_map.mp h
  obtain ⟨stretch, -, rfl⟩ := List.mem_map.mp hwindow
  rfl

end FileTree

section Reading

variable {tree : FileTree} {r : Resolver}

/-- The edges that reading files adds. -/
def readEdges (tree : FileTree) (r : Resolver) (files : List Path) : Finset (String × String) :=
  passageEdges tree r (files.flatMap tree.passages)

/-- What the specifiers extracted from a file lead to, each module once and in ascending order. -/
def ownDependencies (tree : FileTree) (r : Resolver) (file : Path) : List String :=
  sortPaths ((tree.passages file).flatMap fun passage =>
    (extractImports passage.text).filterMap fun item =>
      (r.resolve tree item.specifier file).1).eraseDups

/-- A dependency of a file is what a specifier in one of its passages leads to. -/
theorem mem_ownDependencies {file : Path} {target : String} :
    target ∈ ownDependencies tree r file ↔
      ∃ passage ∈ tree.passages file, ∃ item ∈ extractImports passage.text,
        (r.resolve tree item.specifier file).1 = some target := by
  simp only [ownDependencies, mem_sortPaths, List.mem_eraseDups, List.mem_flatMap,
    List.mem_filterMap]

/-- The dependencies of a file ascend strictly. -/
theorem ownDependencies_ascending (tree : FileTree) (r : Resolver) (file : Path) :
    (ownDependencies tree r file).Pairwise (· < ·) :=
  sortPaths_ascending (nodup_eraseDups _)

/-- Reading files adds an edge from each of them to each of its dependencies. -/
theorem mem_readEdges {files : List Path} {source target : String} :
    (source, target) ∈ readEdges tree r files ↔
      ∃ file ∈ files, r.key file = source ∧ target ∈ ownDependencies tree r file := by
  simp only [readEdges, mem_passageEdges, List.mem_flatMap, mem_ownDependencies]
  constructor
  · rintro ⟨passage, ⟨file, hfile, hpassage⟩, item, hitem, hsource, htarget⟩
    rw [FileTree.path_of_mem_passages hpassage] at hsource htarget
    exact ⟨file, hfile, hsource, passage, hpassage, item, hitem, htarget⟩
  · rintro ⟨file, hfile, hsource, passage, hpassage, item, hitem, htarget⟩
    rw [← FileTree.path_of_mem_passages hpassage] at hsource htarget
    exact ⟨passage, ⟨file, hfile, hpassage⟩, item, hitem, hsource, htarget⟩

/-- Files read together add what each of them adds. -/
theorem readEdges_append (tree : FileTree) (r : Resolver) (left right : List Path) :
    readEdges tree r (left ++ right) = readEdges tree r left ∪ readEdges tree r right := by
  ext ⟨source, target⟩
  simp only [Finset.mem_union, mem_readEdges, List.mem_append, or_and_right, exists_or]

/-- The edges from a file that was read lead to its dependencies, as no other file has its key. -/
theorem mem_readEdges_key {files : List Path} (hfiles : ∀ file ∈ files, file.IsPlace) {file : Path}
    (hfile : file.IsPlace) {target : String} :
    (r.key file, target) ∈ readEdges tree r files ↔
      file ∈ files ∧ target ∈ ownDependencies tree r file := by
  rw [mem_readEdges]
  constructor
  · rintro ⟨other, hother, hkey, htarget⟩
    have heq : other = file := Resolver.keyIn_injective (hfiles other hother) hfile hkey
    subst heq
    exact ⟨hother, htarget⟩
  · rintro ⟨hread, htarget⟩
    exact ⟨file, hread, rfl, htarget⟩

/-- The files that entries name, those that are not there left out. -/
def entryFiles (tree : FileTree) (root : Path) (entries : List String) : List Path :=
  ((entries.map fun entry => root.join (Path.ofString entry)).filter tree.isFile).map Path.resolved

/-- An entry that is there names its file. -/
theorem mem_entryFiles {root : Path} {entries : List String} {entry : String}
    (hentry : entry ∈ entries) (hfile : tree.isFile (root.join (Path.ofString entry))) :
    (root.join (Path.ofString entry)).resolved ∈ entryFiles tree root entries :=
  List.mem_map_of_mem (List.mem_filter.mpr ⟨List.mem_map_of_mem hentry, hfile⟩)

/-- What names an entry is made of steps. -/
theorem isStep_of_mem_join {root : Path} (hroot : root.IsPlace) (entry : String) :
    ∀ name ∈ (root.join (Path.ofString entry)).names, Path.IsStep name :=
  Path.isStep_join (fun name hname => (hroot.names_isName name hname).1) fun _ =>
    Path.isStep_of_mem_ofString

/-- The files of entries are places. -/
theorem isPlace_of_mem_entryFiles {root : Path} (hroot : root.IsPlace) {entries : List String}
    {file : Path} (h : file ∈ entryFiles tree root entries) : file.IsPlace := by
  obtain ⟨path, hpath, rfl⟩ := List.mem_map.mp h
  obtain ⟨entry, -, rfl⟩ := List.mem_map.mp (List.mem_filter.mp hpath).1
  exact Path.isPlace_resolved (isStep_of_mem_join hroot entry)

/-- The files that are searched by themselves when files are asked for one after the other: those
that are not modules when their turn comes. Each that is searched makes itself and what it imports
modules. -/
def soloScans (tree : FileTree) (r : Resolver) : Finset String → List Path → List Path
  | _, [] => []
  | modules, file :: rest =>
    if r.key file ∈ modules then soloScans tree r modules rest
    else
      file :: soloScans tree r
        (insert (r.key file) (endsOf (readEdges tree r [file]) ∪ modules)) rest

/-- Reading no files adds no edges. -/
@[simp] theorem readEdges_nil : readEdges tree r [] = ∅ := rfl

/-- The first file makes modules before the turn of the others comes. -/
theorem soloScans_cons (modules : Finset String) (file : Path) (rest : List Path) :
    soloScans tree r modules (file :: rest) =
      soloScans tree r modules [file] ++
        soloScans tree r
          (insert (r.key file) (endsOf (readEdges tree r (soloScans tree r modules [file])) ∪ modules))
          rest := by
  rw [soloScans, soloScans]
  by_cases hmodule : r.key file ∈ modules
  · simp [hmodule, soloScans, endsOf]
  · simp [hmodule, soloScans]

/-- What is searched by itself was asked for. -/
theorem mem_of_mem_soloScans {modules : Finset String} {files : List Path} {file : Path}
    (h : file ∈ soloScans tree r modules files) : file ∈ files := by
  induction files generalizing modules with
  | nil => exact h
  | cons first rest ih =>
    rw [soloScans] at h
    split at h
    · exact List.mem_cons_of_mem _ (ih h)
    · rcases List.mem_cons.mp h with rfl | h
      · exact List.mem_cons_self
      · exact List.mem_cons_of_mem _ (ih h)

end Reading

namespace ScanState

/-- What a scan by walking has come to: the resolver gives the answers it gave at first, and the
draft and the processed edges agree on a set of edges. -/
structure Keeps (tree : FileTree) (r : Resolver) (s : ScanState) (nodes : Finset String)
    (edges : Finset (String × String)) : Prop where
  walks : s.method = .walk
  agrees : r.Agrees tree s.resolver
  holds : s.draft.Holds nodes edges
  mem_processed : ∀ e, e ∈ s.processed ↔ e ∈ edges

variable {tree : FileTree} {r : Resolver} {s : ScanState} {nodes : Finset String}
  {edges : Finset (String × String)}

/-- A question about a path that is too long ends the scan. -/
theorem ask_of_isTooLong {question : FileTree → Path → Bool} {p : Path} (h : tree.isTooLong p) :
    s.ask tree question p = .error ⟨.tooLong ⟨p⟩, s.notices⟩ := by
  rw [ask, FileTree.ask_of_isTooLong h]
  rfl

/-- A question about any other path has its answer. -/
theorem ask_of_not_isTooLong {question : FileTree → Path → Bool} {p : Path}
    (h : ¬ tree.isTooLong p) : s.ask tree question p = .ok (question tree p) := by
  rw [ask, FileTree.ask_of_not_isTooLong h]
  rfl

/-- Telling something changes no edge. -/
theorem Keeps.tell (h : s.Keeps tree r nodes edges) (notice : Notice) :
    (s.tell notice).Keeps tree r nodes edges :=
  ⟨h.walks, h.agrees, h.holds, h.mem_processed⟩

/-- Adding a module changes no edge. -/
theorem Keeps.addNode (h : s.Keeps tree r nodes edges) (path : String) :
    Keeps tree r { s with draft := s.draft.addNode path } (insert path nodes) edges :=
  ⟨h.walks, h.agrees, h.holds.addNode path, h.mem_processed⟩

/-- The numbers of imports that are told of entries which were searched by themselves. -/
def entryCounts (told : List Notice) : List ℕ :=
  told.filterMap fun
    | .entryScanned _ added => some added
    | _ => none

/-- A number that is told of an entry is among the counts. -/
theorem mem_entryCounts {told : List Notice} {key : String} {added : ℕ}
    (h : Notice.entryScanned key added ∈ told) : added ∈ entryCounts told :=
  List.mem_filterMap.mpr ⟨_, h, rfl⟩

/-- From one state to another some edges became new, and what was told in between of entries that
were searched by themselves counts them. -/
def Recounts (s s' : ScanState) (edges edges' : Finset (String × String)) : Prop :=
  ∃ told, s'.notices = s.notices ++ told ∧ edges.card + (entryCounts told).sum = edges'.card

/-- Where nothing is told of an entry, no edges became new. -/
theorem Recounts.of_entryCounts_eq_nil {s s' : ScanState} {told : List Notice}
    (htold : s'.notices = s.notices ++ told) (hcounts : entryCounts told = [])
    (edges : Finset (String × String)) : s.Recounts s' edges edges :=
  ⟨told, htold, by rw [hcounts, List.sum_nil, Nat.add_zero]⟩

/-- What is told first and what is told then count the edges together. -/
theorem Recounts.trans {s s' s'' : ScanState} {edges edges' edges'' : Finset (String × String)}
    (h : s.Recounts s' edges edges') (h' : s'.Recounts s'' edges' edges'') :
    s.Recounts s'' edges edges'' := by
  obtain ⟨told, htold, hcount⟩ := h
  obtain ⟨later, hlater, hcount'⟩ := h'
  refine ⟨told ++ later, by rw [hlater, htold, List.append_assoc], ?_⟩
  rw [entryCounts, List.filterMap_append, List.sum_append, ← Nat.add_assoc, ← hcount', ← hcount]
  rfl

/-- A walk gives the passages of the files that it reads. -/
theorem search_walk (hwalks : s.method = .walk) (target : Path) (globs : ScanGlobs) :
    s.search tree target globs =
      match tree.scannedFiles target globs with
      | .error cause => .error ⟨.listing cause, s.notices⟩
      | .ok files => .ok (files.flatMap tree.passages,
          { s with notices := s.notices ++ (tree.search importSearchPattern target globs).2 }) := by
  have hfst := tree.search_fst importSearchPattern target globs
  rw [search, hwalks]
  generalize tree.search importSearchPattern target globs = found at hfst ⊢
  obtain ⟨windows, notices⟩ := found
  obtain rfl : windows = _ := hfst
  cases tree.scannedFiles target globs with
  | error cause => rfl
  | ok files =>
    have hpassages : (files.flatMap (tree.searchFile importSearchPattern)).map
        (fun w => (⟨w.path, w.text⟩ : Passage)) = files.flatMap tree.passages := List.map_flatMap
    simp only [Except.map, hpassages]

/-- A walk over a target adds the edges of the files that it reads, and counts those that are
new. -/
theorem Keeps.scan (h : s.Keeps tree r nodes edges) {target : Path} {globs : ScanGlobs}
    {files : List Path} (hfiles : tree.scannedFiles target globs = .ok files) :
    ∃ added s', s.scan tree target globs = .ok (added, s') ∧
      s'.Keeps tree r (endsOf (readEdges tree r files) ∪ nodes) (readEdges tree r files ∪ edges) ∧
      s'.notices = s.notices ++ (tree.search importSearchPattern target globs).2 ∧
      edges.card + added = (readEdges tree r files ∪ edges).card := by
  have hstart : Ingest.Keeps tree r edges.card ⟨s.resolver, s.draft, s.processed, 0⟩ nodes edges :=
    ⟨h.agrees, h.holds, h.mem_processed, rfl⟩
  have hread := hstart.addPassages (files.flatMap tree.passages)
  let i := Ingest.addPassages tree ⟨s.resolver, s.draft, s.processed, 0⟩
    (files.flatMap tree.passages)
  refine ⟨i.added, { s with
    notices := s.notices ++ (tree.search importSearchPattern target globs).2,
    resolver := i.resolver, draft := i.draft, processed := i.processed }, ?_,
    ⟨h.walks, hread.agrees, hread.holds, hread.mem_processed⟩, rfl, hread.count⟩
  rw [ScanState.scan, search_walk h.walks, hfiles]
  rfl

/-- A walk over a target that cannot be listed fails. -/
theorem Keeps.scan_eq_error (h : s.Keeps tree r nodes edges) {target : Path} {globs : ScanGlobs}
    {cause : ListingError} (hcause : tree.scannedFiles target globs = .error cause) :
    s.scan tree target globs = .error ⟨.listing cause, s.notices⟩ := by
  rw [ScanState.scan, search_walk h.walks, hcause]
  rfl

/-- A file that is no module yet is searched by itself, and nothing is told in it. -/
theorem Keeps.scanFile (h : s.Keeps tree r nodes edges) {file : Path} (hplace : file.IsPlace)
    (hfile : tree.isFile file) (globs : ScanGlobs) :
    ∃ added s', s.scan tree file globs = .ok (added, s') ∧
      s'.Keeps tree r (endsOf (readEdges tree r [file]) ∪ nodes)
        (readEdges tree r [file] ∪ edges) ∧
      s'.notices = s.notices ∧ edges.card + added = (readEdges tree r [file] ∪ edges).card := by
  have hfiles : tree.scannedFiles file globs = .ok [file] := by
    rw [FileTree.scannedFiles, if_pos hfile, hplace.resolved_eq]
  have hquiet : (tree.search importSearchPattern file globs).2 = [] := by
    rw [FileTree.search, if_pos hfile]
  obtain ⟨added, s', hscan, hkeeps, hnotices, hcount⟩ := h.scan hfiles
  rw [hquiet, List.append_nil] at hnotices
  exact ⟨added, s', hscan, hkeeps, hnotices, hcount⟩

/-- An entry that is too long ends the scan. -/
theorem scanEntries_of_isTooLong {root : Path} {entry : String}
    (hlong : tree.isTooLong (root.join (Path.ofString entry))) (globs : ScanGlobs)
    (rest : List String) : s.scanEntries tree root globs (entry :: rest) =
      .error ⟨.tooLong ⟨root.join (Path.ofString entry)⟩, s.notices⟩ := by
  rw [ScanState.scanEntries, ask_of_isTooLong hlong]
  rfl

/-- An entry that is not there is told and passed over. -/
theorem scanEntries_of_missing {root : Path} {entry : String}
    (hshort : ¬ tree.isTooLong (root.join (Path.ofString entry)))
    (hmissing : ¬ tree.isFile (root.join (Path.ofString entry))) (globs : ScanGlobs)
    (rest : List String) : s.scanEntries tree root globs (entry :: rest) =
      (s.tell (.entryMissing entry)).scanEntries tree root globs rest := by
  rw [ScanState.scanEntries, ask_of_not_isTooLong hshort, eq_false_of_ne_true hmissing]
  rfl

/-- An entry that is there becomes a module, and is searched if it was none, before the entries
after it are dealt with. -/
theorem Keeps.scanEntry (h : s.Keeps tree r nodes edges) {root : Path} (hroot : root.IsPlace)
    {entry : String} {file : Path} (hpath : (root.join (Path.ofString entry)).resolved = file)
    (hshort : ¬ tree.isTooLong (root.join (Path.ofString entry)))
    (hthere : tree.isFile (root.join (Path.ofString entry))) (globs : ScanGlobs) :
    let new := readEdges tree r (soloScans tree r nodes [file])
    ∃ s' : ScanState, s'.Keeps tree r (insert (r.key file) (endsOf new ∪ nodes)) (new ∪ edges) ∧
      s.Recounts s' edges (new ∪ edges) ∧
      ∀ rest, s.scanEntries tree root globs (entry :: rest) =
        (s'.scanEntries tree root globs rest).map
          fun result => (r.key file :: result.1, result.2) := by
  have hsteps := isStep_of_mem_join hroot entry
  have hfile := FileTree.isFile_resolved hthere
  have hplace := Path.isPlace_resolved hsteps
  rw [hpath] at hfile hplace
  have hkey : s.resolver.key file = r.key file := h.agrees.key_eq file
  have hcontains : s.draft.contains (r.key file) ↔ r.key file ∈ nodes := by
    rw [GraphDraft.contains_iff, h.holds.mem_nodes]
  by_cases hmodule : r.key file ∈ nodes
  · have hnew : readEdges tree r (soloScans tree r nodes [file]) = ∅ := by
      simp [soloScans, hmodule]
    refine ⟨{ s with draft := s.draft.addNode (r.key file) }, ?_, ?_, fun rest => ?_⟩
    · simpa [hnew, endsOf] using h.addNode (r.key file)
    · rw [hnew, Finset.empty_union]
      exact .of_entryCounts_eq_nil (List.append_nil _).symm rfl edges
    · rw [ScanState.scanEntries, ask_of_not_isTooLong hshort, hthere, hpath]
      simp only [bind, Except.bind, hkey, if_true, if_pos (hcontains.mpr hmodule)]
      rfl
  · obtain ⟨added, s₁, hscan, hread, hnotices, hcount⟩ := h.scanFile hplace hfile globs
    let s₂ := s₁.tell (.entryScanned (r.key file) added)
    refine ⟨{ s₂ with draft := s₂.draft.addNode (r.key file) }, ?_, ?_, fun rest => ?_⟩
    · have hadd := (hread.tell (.entryScanned (r.key file) added)).addNode (r.key file)
      simpa only [soloScans, if_neg hmodule] using hadd
    · refine ⟨[.entryScanned (r.key file) added], congrArg (· ++ _) hnotices, ?_⟩
      rw [soloScans, if_neg hmodule]
      exact hcount
    · rw [ScanState.scanEntries, ask_of_not_isTooLong hshort, hthere, hpath]
      simp only [bind, Except.bind, hkey, if_true, if_neg (hcontains.not.mpr hmodule), hscan]
      rfl

/-- The entries are dealt with one after the other: each that is there becomes a module, and those
that are searched by themselves add their edges and are told with the number of new ones. -/
theorem Keeps.scanEntries (h : s.Keeps tree r nodes edges) {root : Path} (hroot : root.IsPlace)
    (globs : ScanGlobs) {entries : List String}
    (hshort : ∀ entry ∈ entries, ¬ tree.isTooLong (root.join (Path.ofString entry))) :
    let files := entryFiles tree root entries
    let new := readEdges tree r (soloScans tree r nodes files)
    ∃ s', s.scanEntries tree root globs entries = .ok (files.map r.key, s') ∧
      s'.Keeps tree r ((files.map r.key).toFinset ∪ endsOf new ∪ nodes) (new ∪ edges) ∧
      s.Recounts s' edges (new ∪ edges) := by
  induction entries generalizing s nodes edges with
  | nil =>
    have hnew : readEdges tree r (soloScans tree r nodes (entryFiles tree root [])) = ∅ := rfl
    refine ⟨s, rfl, by simpa [entryFiles, soloScans, endsOf] using h, ?_⟩
    simp only [hnew, Finset.empty_union]
    exact .of_entryCounts_eq_nil (List.append_nil _).symm rfl edges
  | cons entry rest ih =>
    intro files new
    obtain ⟨hentry, hrest⟩ := List.forall_mem_cons.mp hshort
    by_cases hthere : tree.isFile (root.join (Path.ofString entry))
    · obtain ⟨file, hpath⟩ : ∃ file, (root.join (Path.ofString entry)).resolved = file := ⟨_, rfl⟩
      have hfiles : files = file :: entryFiles tree root rest := by
        simp [files, entryFiles, hthere, hpath]
      obtain ⟨s₁, hfirst, hcount, hstep⟩ := h.scanEntry hroot hpath hentry hthere globs
      obtain ⟨s', hs', hkeeps, hcount'⟩ := ih hfirst hrest
      refine ⟨s', by rw [hstep, hs', hfiles]; rfl, ?_⟩
      have hnodes (key : String) (keys first others : Finset String) :
          insert key keys ∪ (first ∪ others) ∪ nodes =
            keys ∪ others ∪ insert key (first ∪ nodes) := by
        rw [Finset.insert_union, Finset.insert_union, Finset.union_insert]
        exact congrArg (insert key) (by ac_rfl)
      have hedges (first others : Finset (String × String)) :
          first ∪ others ∪ edges = others ∪ (first ∪ edges) := by
        rw [Finset.union_comm first, Finset.union_assoc]
      simp only [new, hfiles]
      rw [soloScans_cons, readEdges_append, endsOf_union, List.map_cons, List.toFinset_cons, hnodes,
        hedges]
      exact ⟨hkeeps, hcount.trans hcount'⟩
    · obtain ⟨s', hs', hkeeps, hcount⟩ := ih (h.tell (.entryMissing entry)) hrest
      have hfiles : files = entryFiles tree root rest := by simp [files, entryFiles, hthere]
      simp only [new, hfiles]
      refine ⟨s', ?_, hkeeps, Recounts.trans ?_ hcount⟩
      · rw [scanEntries_of_missing hentry hthere]
        exact hs'
      · exact .of_entryCounts_eq_nil rfl rfl edges

/-- The first entry that is too long ends the scan, after the entries before it were dealt with. -/
theorem Keeps.scanEntries_eq_error (h : s.Keeps tree r nodes edges) {root : Path}
    (hroot : root.IsPlace) (globs : ScanGlobs) {entries : List String} {entry : String}
    (hlong : entries.find? (fun entry => tree.isTooLong (root.join (Path.ofString entry))) =
      some entry) :
    ∃ notices, s.scanEntries tree root globs entries =
      .error ⟨.tooLong ⟨root.join (Path.ofString entry)⟩, notices⟩ := by
  induction entries generalizing s nodes edges with
  | nil => cases hlong
  | cons first rest ih =>
    by_cases hfirst : tree.isTooLong (root.join (Path.ofString first))
    · simp only [List.find?_cons, hfirst, Option.some.injEq] at hlong
      subst hlong
      exact ⟨s.notices, scanEntries_of_isTooLong hfirst globs rest⟩
    · simp only [List.find?_cons, eq_false_of_ne_true hfirst] at hlong
      by_cases hthere : tree.isFile (root.join (Path.ofString first))
      · obtain ⟨s', hkeeps, -, hstep⟩ := h.scanEntry hroot rfl hfirst hthere globs
        obtain ⟨notices, hrest⟩ := ih hkeeps hlong
        exact ⟨notices, by rw [hstep, hrest]; rfl⟩
      · rw [scanEntries_of_missing hfirst hthere]
        exact ih (h.tell _) hlong

end ScanState

namespace ScanRequest

variable {tree : FileTree} {request : ScanRequest} {s : ScanState}

/-- A scan starts where its aliases are loaded and its root is not too long. -/
theorem start_eq_ok {table : Option AliasTable} {notices : List Notice}
    (hload : AliasTable.load tree request.root request.aliasConfig = .ok (table, notices))
    (hshort : ¬ tree.isTooLong request.root) : request.start tree =
      .ok { method := request.method, resolver := .new request.root table, notices } := by
  rw [start, hload]
  exact if_neg fun h => hshort h.2

/-- Nothing was scanned at the start, and the files are named from the root. -/
theorem exists_of_start_eq_ok (h : request.start tree = .ok s) :
    ∃ table notices, s =
      { method := request.method, resolver := .new request.root table, notices } := by
  obtain ⟨⟨table, notices⟩, -, h⟩ := exists_of_bind_eq_ok h
  dsimp only at h
  split at h
  · cases h
  · cases h
    exact ⟨table, notices, rfl⟩

/-- Files are named from the root. -/
theorem root_of_start (h : request.start tree = .ok s) : s.resolver.root = request.root := by
  obtain ⟨table, notices, rfl⟩ := exists_of_start_eq_ok h
  rfl

/-- No edges are kept at first. -/
theorem keeps_of_start (hwalk : request.method = .walk) (h : request.start tree = .ok s) :
    s.Keeps tree s.resolver ∅ ∅ := by
  obtain ⟨table, notices, rfl⟩ := exists_of_start_eq_ok h
  exact ⟨hwalk, .refl tree _, .empty, by simp⟩

/-- The files that a scan reads, given those that the search over the root reads: these, and the
entries that are searched by themselves. -/
def readFiles (tree : FileTree) (request : ScanRequest) (r : Resolver) (files : List Path) :
    List Path :=
  files ++ soloScans tree r (endsOf (readEdges tree r files))
    (entryFiles tree request.root request.entries)

end ScanRequest

section Projects

variable {tree : FileTree} {request : ScanRequest} {s₀ : ScanState} {files : List Path}

/-- The files that a scan reads are places. -/
theorem isPlace_of_mem_readFiles (htree : tree.root.wellNamed) (hroot : request.root.IsPlace)
    (hfiles : tree.scannedFiles request.root request.globs = .ok files) (r : Resolver) :
    ∀ file ∈ request.readFiles tree r files, file.IsPlace := by
  intro file hfile
  rcases List.mem_append.mp hfile with hfile | hfile
  · exact FileTree.isPlace_of_mem_scannedFiles htree hroot hfiles file hfile
  · exact isPlace_of_mem_entryFiles hroot (mem_of_mem_soloScans hfile)

/-- A scan with entries goes on where the one without entries ends. -/
theorem scanProject_eq_bind (hentries : request.entries ≠ []) :
    scanProject tree request = scanProject tree { request with entries := [] } >>= fun whole =>
      (whole.2.scanEntries tree request.root request.globs request.entries).map fun scanned =>
        ((scanned.2.draft.build request.root.toString request.generatedAt).scopedTo scanned.1,
          scanned.2) := by
  have hsome : ¬ request.entries.isEmpty := by simpa using hentries
  rw [scanProject, scanProject]
  simp only [if_neg hsome, List.isEmpty_nil, if_true, bind_assoc]
  refine bind_congr fun s => bind_congr fun scanned => ?_
  rw [pure_bind]
  exact bind_pure_comp _ _

/-- A scan without entries keeps the edges of the files that the search over the root reads. -/
theorem scanProject_whole (hwalk : request.method = .walk) (hstart : request.start tree = .ok s₀)
    (hfiles : tree.scannedFiles request.root request.globs = .ok files) :
    let r := s₀.resolver
    let edges := readEdges tree r files
    ∃ s : ScanState, scanProject tree { request with entries := [] } =
        .ok (s.draft.build request.root.toString request.generatedAt, s) ∧
      s.Keeps tree r (endsOf edges) edges := by
  intro r edges
  obtain ⟨added, s, hscan, hread, -⟩ := (request.keeps_of_start hwalk hstart).scan hfiles
  simp only [Finset.union_empty] at hread
  refine ⟨s.tell (.scanned request.root s.draft.nodes.length added), ?_, hread.tell _⟩
  rw [scanProject]
  change (request.start tree >>= _) = _
  rw [hstart]
  change (s₀.scan tree request.root request.globs >>= _) = _
  rw [hscan]
  rfl

/-- A scan with entries fails at the first that is too long. -/
theorem scanProject_eq_error_of_overlong (hroot : request.root.IsPlace)
    (hwalk : request.method = .walk) (hstart : request.start tree = .ok s₀)
    (hfiles : tree.scannedFiles request.root request.globs = .ok files) {entry : String}
    (hlong : request.entries.find? (fun entry =>
      tree.isTooLong (request.root.join (Path.ofString entry))) = some entry) :
    ∃ notices, scanProject tree request =
      .error ⟨.tooLong ⟨request.root.join (Path.ofString entry)⟩, notices⟩ := by
  have hentries : request.entries ≠ [] := by
    intro hnone
    rw [hnone] at hlong
    cases hlong
  obtain ⟨s, hwhole, hkeeps⟩ := scanProject_whole hwalk hstart hfiles
  obtain ⟨notices, hscan⟩ := hkeeps.scanEntries_eq_error hroot request.globs hlong
  refine ⟨notices, ?_⟩
  rw [scanProject_eq_bind hentries, hwhole]
  change Except.map _ (s.scanEntries tree request.root request.globs request.entries) = _
  rw [hscan]
  rfl

/-- A scan with entries gives what the entries reach in the graph of the files that were read. -/
theorem scanProject_scopedTo (hroot : request.root.IsPlace) (hwalk : request.method = .walk)
    (hentries : request.entries ≠ []) (hstart : request.start tree = .ok s₀)
    (hfiles : tree.scannedFiles request.root request.globs = .ok files)
    (hshort : ∀ entry ∈ request.entries,
      ¬ tree.isTooLong (request.root.join (Path.ofString entry))) :
    let r := s₀.resolver
    let keys := (entryFiles tree request.root request.entries).map r.key
    let edges := readEdges tree r (request.readFiles tree r files)
    ∃ (g : ImportGraph) (s : ScanState), scanProject tree request = .ok (g.scopedTo keys, s) ∧
      g.Represents (keys.toFinset ∪ endsOf edges) edges := by
  intro r keys edges
  obtain ⟨s₁, hwhole, hkeeps₁⟩ := scanProject_whole hwalk hstart hfiles
  obtain ⟨s, hscan, hkeeps, -⟩ := hkeeps₁.scanEntries hroot request.globs hshort
  have hedges : edges = readEdges tree r (soloScans tree r (endsOf (readEdges tree r files))
      (entryFiles tree request.root request.entries)) ∪ readEdges tree r files := by
    rw [Finset.union_comm, ← readEdges_append]
    rfl
  rw [Finset.union_assoc, ← endsOf_union, ← hedges] at hkeeps
  refine ⟨_, s, ?_, hkeeps.holds.build request.root.toString request.generatedAt⟩
  rw [scanProject_eq_bind hentries, hwhole]
  change Except.map _ (s₁.scanEntries tree request.root request.globs request.entries) = _
  rw [hscan]
  rfl

/-- A scan with entries fails at the first entry that is too long to be looked up. If there is none,
it makes each entry that is there a module. The dependencies of an entry are its own exactly if its
file was read, by the search over the root or by itself, or if it has none; the dependencies of an
entry that was not read are missing. -/
theorem scanProject_entry_dependencies (htree : tree.root.wellNamed) (hroot : request.root.IsPlace)
    (hwalk : request.method = .walk) (hentries : request.entries ≠ [])
    (hstart : request.start tree = .ok s₀)
    (hfiles : tree.scannedFiles request.root request.globs = .ok files) :
    let path (entry : String) : Path := request.root.join (Path.ofString entry)
    (∀ entry, request.entries.find? (fun entry => tree.isTooLong (path entry)) = some entry →
      ∃ notices, scanProject tree request = .error ⟨.tooLong ⟨path entry⟩, notices⟩) ∧
    ((∀ entry ∈ request.entries, ¬ tree.isTooLong (path entry)) →
      ∃ g s, scanProject tree request = .ok (g, s) ∧
        ∀ entry ∈ request.entries, tree.isFile (path entry) →
          let file := (path entry).resolved
          let r := s₀.resolver
          g.contains (r.key file) ∧
            (g.dependencies (r.key file) = ownDependencies tree r file ↔
              file ∈ request.readFiles tree r files ∨ ownDependencies tree r file = []) ∧
            (file ∉ request.readFiles tree r files → g.dependencies (r.key file) = [])) := by
  intro path
  refine ⟨fun entry hlong => scanProject_eq_error_of_overlong hroot hwalk hstart hfiles hlong,
    fun hshort => ?_⟩
  obtain ⟨g, s, hscan, hgraph⟩ := scanProject_scopedTo hroot hwalk hentries hstart hfiles hshort
  refine ⟨_, s, hscan, fun entry hentry hthere => ?_⟩
  intro file r
  have hplaces := isPlace_of_mem_readFiles htree hroot hfiles r
  have hfile := mem_entryFiles hentry hthere
  have hplace : file.IsPlace := isPlace_of_mem_entryFiles hroot hfile
  have hkey : r.key file ∈ (entryFiles tree request.root request.entries).map r.key :=
    List.mem_map_of_mem hfile
  obtain ⟨hmodule, hkept⟩ := hgraph.dependencies_scopedTo_of_mem _ hkey
    (Finset.mem_union_left _ (List.mem_toFinset.mpr hkey))
  have hmem (target : String) : target ∈ g.dependencies (r.key file) ↔
      file ∈ request.readFiles tree r files ∧ target ∈ ownDependencies tree r file := by
    rw [hgraph.mem_dependencies, mem_readEdges_key hplaces hplace]
  have hunread (h : file ∉ request.readFiles tree r files) : g.dependencies (r.key file) = [] :=
    List.eq_nil_iff_forall_not_mem.mpr fun target htarget => h ((hmem target).mp htarget).1
  rw [hkept]
  refine ⟨hmodule, ⟨fun hown => ?_, fun hread => ?_⟩, hunread⟩
  · by_cases hread : file ∈ request.readFiles tree r files
    · exact .inl hread
    · exact .inr (hown ▸ hunread hread)
  · refine ascending_ext id (hgraph.dependencies_ascending _)
      (ownDependencies_ascending tree r file) fun target => ?_
    rw [hmem]
    rcases hread with hread | hnone
    · exact and_iff_right hread
    · simp [hnone]

end Projects

/-- An entry in an excluded folder that a scanned file imports is a module without dependencies. -/
theorem scanProject_entry_dependencies_excluded :
    let text (s : String) : Entry := .file (Text.encode s.toList)
    let tree : FileTree := ⟨.folder [("p", .folder [
      ("dist", .folder [("b.ts", text "import './c'"), ("c.ts", text "")]),
      ("main.ts", text "import './dist/b'")])]⟩
    let request : ScanRequest :=
      { root := ⟨.root, ["p"]⟩, entries := ["main.ts", "dist/b.ts"],
        globs := ⟨["**/*.ts"], ["**/dist/**"]⟩, generatedAt := "" }
    ∃ g s, scanProject tree request = .ok (g, s) ∧
      g.dependencies "main.ts" = ["dist/b.ts"] ∧
      g.contains "dist/b.ts" ∧ g.dependencies "dist/b.ts" = [] := by
  intro text tree request
  let r : Resolver := .new request.root none
  have hstart : request.start tree = .ok { method := .walk, resolver := r } :=
    ScanRequest.start_eq_ok (by decide +kernel) (by decide +kernel)
  have hfiles : tree.scannedFiles request.root request.globs = .ok [⟨.root, ["p", "main.ts"]⟩] := by
    decide +kernel
  obtain ⟨-, hshort⟩ := scanProject_entry_dependencies (by decide +kernel) ⟨rfl, by decide +kernel⟩ rfl
    (by simp [request]) hstart hfiles
  obtain ⟨g, s, hscan, hentry⟩ := hshort (by decide +kernel)
  have hmain := hentry "main.ts" (by simp [request]) (by decide +kernel)
  have hexcluded := hentry "dist/b.ts" (by simp [request]) (by decide +kernel)
  have hmainKey : r.key (request.root.join (Path.ofString "main.ts")).resolved = "main.ts" := by
    decide +kernel
  have hexcludedKey : r.key (request.root.join (Path.ofString "dist/b.ts")).resolved =
      "dist/b.ts" := by decide +kernel
  change _ ∧ (g.dependencies (r.key _) = _ ↔ _) ∧ _ at hmain
  change g.contains (r.key _) ∧ _ ∧ (_ → g.dependencies (r.key _) = []) at hexcluded
  simp only [hmainKey] at hmain
  simp only [hexcludedKey] at hexcluded
  have hown : ownDependencies tree r
      (request.root.join (Path.ofString "main.ts")).resolved = ["dist/b.ts"] := by decide +kernel
  refine ⟨g, s, hscan, hown ▸ hmain.2.1.mpr (.inl (by decide +kernel)), hexcluded.1, ?_⟩
  exact hexcluded.2.2 (by decide +kernel)

/-- Not every entry that is there gets its own dependencies. -/
theorem not_forall_entry_dependencies_own :
    ¬ ∀ (tree : FileTree) (request : ScanRequest) (s₀ : ScanState) (g : ImportGraph)
      (s : ScanState), tree.root.wellNamed → request.root.IsPlace → request.method = .walk →
        request.start tree = .ok s₀ → scanProject tree request = .ok (g, s) →
          ∀ entry ∈ request.entries, tree.isFile (request.root.join (Path.ofString entry)) →
            let file := (request.root.join (Path.ofString entry)).resolved
            let r := s₀.resolver
            g.dependencies (r.key file) = ownDependencies tree r file := by
  intro hclaim
  let text (s : String) : Entry := .file (Text.encode s.toList)
  let tree : FileTree := ⟨.folder [("p", .folder [
    ("dist", .folder [("b.ts", text "import './c'"), ("c.ts", text "")]),
    ("main.ts", text "import './dist/b'")])]⟩
  let request : ScanRequest :=
    { root := ⟨.root, ["p"]⟩, entries := ["dist/b.ts"],
      globs := ⟨["**/*.ts"], ["**/dist/**"]⟩, generatedAt := "" }
  let r : Resolver := .new request.root none
  have hroot : request.root.IsPlace := ⟨rfl, by decide +kernel⟩
  have hstart : request.start tree = .ok { method := .walk, resolver := r } :=
    ScanRequest.start_eq_ok (by decide +kernel) (by decide +kernel)
  have hfiles : tree.scannedFiles request.root request.globs = .ok [⟨.root, ["p", "main.ts"]⟩] := by
    decide +kernel
  obtain ⟨g, s, hscan, hgraph⟩ := scanProject_scopedTo hroot rfl (by simp [request]) hstart hfiles
    (by decide +kernel)
  have hown := hclaim tree request _ _ s (by decide +kernel) hroot rfl hstart hscan "dist/b.ts"
    (by simp [request]) (by decide +kernel)
  have hkey : r.key (request.root.join (Path.ofString "dist/b.ts")).resolved = "dist/b.ts" := by
    decide +kernel
  have hlost : ownDependencies tree r
      (request.root.join (Path.ofString "dist/b.ts")).resolved = ["dist/c.ts"] := by decide +kernel
  change ImportGraph.dependencies _ (r.key _) = ownDependencies tree r _ at hown
  simp only [hkey, hlost] at hown
  -- The edge would have to come from a file that was read.
  have hedge := ((hgraph.scopedTo _).mem_dependencies "dist/b.ts" "dist/c.ts").mp
    (hown ▸ List.mem_singleton_self _)
  exact absurd (Finset.mem_filter.mp hedge).1 (by decide +kernel)

end ImportAtlas
