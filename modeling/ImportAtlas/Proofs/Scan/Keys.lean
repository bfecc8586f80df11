import ImportAtlas.Proofs.Resolver.Keys
import ImportAtlas.Proofs.Resolver.Snapshot
import ImportAtlas.Proofs.Scan.Entries
import ImportAtlas.Proofs.Search.Matches

/-!
# One key for each file

Modules come from passages, from what their specifiers lead to, and from entries. Each of them is
named by its path relative to the root, however the path is written, so that every step of a scan
adds keys alone. A file has therefore one module at most, and an import that leads to a file leads to
the module under which this file is read.
-/

namespace ImportAtlas

/-- Two paths that lead to the same entry of a tree when they are used in a folder. -/
def FileTree.LeadTogether (tree : FileTree) (folder p q : Path) : Prop :=
  ∃ place, tree.follow [] (folder.join p).names = some place ∧
    tree.follow [] (folder.join q).names = some place

namespace Resolver

variable {r : Resolver} {tree : FileTree} {importer : Path} {specifier target : String}

/-- The bare path that a relative specifier names is made of steps. -/
theorem isStep_of_mem_relativeTarget (hroot : r.root.IsPlace)
    (himporter : ∀ name ∈ importer.names, Path.IsStep name) (specifier : String) :
    ∀ name ∈ (r.relativeTarget specifier importer).names, Path.IsStep name := by
  have hsource := Path.isStep_join (fun name hname => (hroot.names_isName name hname).1) himporter
  have hfolder : ∀ name ∈ (r.root.join importer).parent.names, Path.IsStep name := fun name hname =>
    hsource name ((List.dropLast_sublist _).subset hname)
  have habsolute : (r.root.join importer).parent.isAbsolute :=
    isAbsolute_join hroot.isAbsolute importer
  rw [relativeTarget, Path.normal, isAbsolute_join habsolute]
  intro name hname
  exact (Path.isName_of_mem_foldl_normalStep
    (Path.isStep_join hfolder fun _ => Path.isStep_of_mem_ofString) (by simp) name hname).1

/-- What a specifier leads to is named by its key. -/
theorem isKey_of_resolve (hroot : r.root.IsPlace)
    (himporter : ∀ name ∈ importer.names, Path.IsStep name)
    (h : (r.resolve tree specifier importer).1 = some target) : IsKey r.root target := by
  have hread (path : String) : IsKey r.root (r.key (Path.ofString path)) :=
    isKey_keyIn hroot fun _ => Path.isStep_of_mem_ofString
  rw [resolve_fst] at h
  split at h
  · cases h
  · split at h
    · cases hfile : (candidatePaths (r.relativeTarget specifier importer).toString).find?
          (r.sees tree) with
      | some path =>
        simp only [hfile, Option.elim_some, Option.some.injEq] at h
        exact h ▸ hread path
      | none =>
        simp only [hfile, Option.elim_none, Option.some.injEq] at h
        exact h ▸ isKey_keyIn hroot (isStep_of_mem_relativeTarget hroot himporter specifier)
    · obtain ⟨path, -, rfl⟩ := Option.map_eq_some_iff.mp h
      exact hread path

/-- Resolving keeps the root. -/
theorem root_resolve (r : Resolver) (tree : FileTree) (specifier : String) (importer : Path) :
    (r.resolve tree specifier importer).2.root = r.root :=
  (agrees_resolve tree r specifier importer).root_eq

/-- The file that a specifier finds: the first of its candidates that is taken for a file. -/
def Finds (r : Resolver) (tree : FileTree) (specifier : String) (importer file : Path) : Prop :=
  ∃ path, (r.candidates ⟨tree, specifier, importer⟩).find? (r.sees tree) = some path ∧
    tree.LeadTogether r.root (Path.ofString path) file

/-- A specifier that finds a file leads to the key of this file. -/
theorem Finds.resolve_eq {file : Path} (h : r.Finds tree specifier importer file)
    (hroot : r.root.IsPlace) : (r.resolve tree specifier importer).1 = some (r.key file) := by
  obtain ⟨path, hpath, place, hleads, hleads'⟩ := h
  have hkey : r.key (Path.ofString path) = r.key file :=
    keyIn_eq_of_follow hroot.isAbsolute hleads hleads'
  rw [r.resolve_fst_eq ⟨tree, specifier, importer⟩, answerBy_of_find? hpath, hkey]

end Resolver

/-- A draft whose modules are all named by their keys. -/
def GraphDraft.IsKeyed (root : Path) (d : GraphDraft) : Prop :=
  ∃ nodes edges, d.Holds nodes edges ∧ ∀ node ∈ nodes, Resolver.IsKey root node

namespace GraphDraft.IsKeyed

variable {root : Path} {d : GraphDraft} {source target : String}

/-- A draft without modules has no module without a key. -/
theorem empty : IsKeyed root {} := ⟨∅, ∅, .empty, by simp⟩

/-- A key may be added. -/
theorem addNode (h : d.IsKeyed root) (htarget : Resolver.IsKey root target) :
    (d.addNode target).IsKeyed root := by
  obtain ⟨nodes, edges, hholds, hkeys⟩ := h
  exact ⟨_, _, hholds.addNode target, Finset.forall_mem_insert .. |>.mpr ⟨htarget, hkeys⟩⟩

/-- An edge between keys may be added. -/
theorem addEdge (h : d.IsKeyed root) (hsource : Resolver.IsKey root source)
    (htarget : Resolver.IsKey root target) : (d.addEdge source target).IsKeyed root := by
  obtain ⟨nodes, edges, hholds, hkeys⟩ := h
  refine ⟨_, _, hholds.addEdge source target, ?_⟩
  simpa only [Finset.forall_mem_insert] using ⟨htarget, hsource, hkeys⟩

/-- The graph of keys is the graph of a set of keys. -/
theorem exists_represents (h : d.IsKeyed root) (rootText generatedAt : String) :
    ∃ nodes edges, (d.build rootText generatedAt).Represents nodes edges ∧
      ∀ node ∈ nodes, Resolver.IsKey root node := by
  obtain ⟨nodes, edges, hholds, hkeys⟩ := h
  exact ⟨nodes, edges, hholds.build rootText generatedAt, hkeys⟩

end GraphDraft.IsKeyed

/-- A graph whose modules are all named by their keys, wherever they stand in it. -/
structure ImportGraph.IsKeyed (root : Path) (g : ImportGraph) : Prop where
  paths : ∀ path ∈ g.paths, Resolver.IsKey root path
  dependencies : ∀ path, ∀ target ∈ g.dependencies path, Resolver.IsKey root target
  dependents : ∀ path, ∀ source ∈ g.dependents path, Resolver.IsKey root source

namespace ImportGraph

variable {root : Path} {g : ImportGraph} {nodes : Finset String} {edges : Finset (String × String)}

/-- In the graph of a set of keys, modules are named by their keys. -/
theorem Represents.isKeyed (h : g.Represents nodes edges)
    (hkeys : ∀ node ∈ nodes, Resolver.IsKey root node) : g.IsKeyed root where
  paths path hpath := hkeys path ((h.mem_paths path).mp hpath)
  dependencies path target htarget :=
    hkeys target (h.ends_mem _ ((h.mem_dependencies path target).mp htarget)).2
  dependents path source hsource :=
    hkeys source (h.ends_mem _ ((h.mem_dependents source path).mp hsource)).1

/-- The module that a file has in a graph of keys is the one under which the file is read. -/
theorem IsKeyed.eq_keyIn (h : g.IsKeyed root) (hroot : root.IsPlace) {path : String}
    (hpath : path ∈ g.paths) {tree : FileTree} {file : Path}
    (hfile : tree.LeadTogether root (Path.ofString path) file) :
    path = Resolver.keyIn root file := by
  obtain ⟨place, hleads, hleads'⟩ := hfile
  exact (h.paths path hpath).symm.trans
    (Resolver.keyIn_eq_of_follow hroot.isAbsolute hleads hleads')

end ImportGraph

namespace Ingest

variable {tree : FileTree} {root : Path} {i : Ingest}

/-- Reading goes on from the root, and its modules so far are named by their keys. -/
structure IsKeyed (root : Path) (i : Ingest) : Prop where
  root_eq : i.resolver.root = root
  draft : i.draft.IsKeyed root

/-- Reading a specifier adds keys alone. -/
theorem IsKeyed.addSpecifier (h : i.IsKeyed root) (hroot : root.IsPlace) {importer : Path}
    (himporter : ∀ name ∈ importer.names, Path.IsStep name) (specifier : String) :
    (addSpecifier tree importer i specifier).IsKeyed root := by
  have hkept := (Resolver.root_resolve i.resolver tree specifier importer).trans h.root_eq
  have hplace : i.resolver.root.IsPlace := h.root_eq ▸ hroot
  have hkey (target : String) (hstep : (i.resolver.resolve tree specifier importer).1 = some target) :
      Resolver.IsKey root target := h.root_eq ▸ Resolver.isKey_of_resolve hplace himporter hstep
  rw [Ingest.addSpecifier]
  generalize i.resolver.resolve tree specifier importer = resolved at hkept hkey
  obtain ⟨found, later⟩ := resolved
  cases found with
  | none => exact ⟨hkept, h.draft⟩
  | some target =>
    have hsource : Resolver.IsKey root (later.key importer) := by
      rw [Resolver.key, hkept]
      exact Resolver.isKey_keyIn hroot himporter
    dsimp only
    split
    · exact ⟨hkept, h.draft⟩
    · exact ⟨hkept, h.draft.addEdge hsource (hkey target rfl)⟩

/-- Reading a passage adds keys alone. -/
theorem IsKeyed.addPassage (h : i.IsKeyed root) (hroot : root.IsPlace) {passage : Passage}
    (hpassage : ∀ name ∈ passage.path.names, Path.IsStep name) :
    (addPassage tree i passage).IsKeyed root := by
  rw [Ingest.addPassage]
  split
  · exact h
  · generalize (extractImports passage.text).map ImportMatch.specifier = specifiers
    induction specifiers generalizing i with
    | nil => exact h
    | cons specifier specifiers ih => exact ih (h.addSpecifier hroot hpassage specifier)

/-- Reading passages adds keys alone. -/
theorem IsKeyed.addPassages (h : i.IsKeyed root) (hroot : root.IsPlace) {passages : List Passage}
    (hpassages : ∀ passage ∈ passages, ∀ name ∈ passage.path.names, Path.IsStep name) :
    (addPassages tree i passages).IsKeyed root := by
  induction passages generalizing i with
  | nil => exact h
  | cons passage passages ih =>
    rw [List.forall_mem_cons] at hpassages
    exact ih (h.addPassage hroot hpassages.1) hpassages.2

end Ingest

/-- Passages that were found before come with paths that are made of steps. -/
def SearchMethod.GivesSteps : SearchMethod → Prop
  | .found passages =>
    ∀ batch ∈ passages, ∀ passage ∈ batch, ∀ name ∈ passage.path.names, Path.IsStep name
  | _ => True

/-- The paths of matches are made of steps. -/
theorem ToolRun.isStep_of_mem_matchesOf {records : List JsonRecord} {found : List MatchRecord}
    (h : matchesOf records = .ok found) :
    ∀ m ∈ found, ∀ name ∈ m.path.names, Path.IsStep name := by
  rw [matchesOf_eq] at h
  split at h
  · cases h
    intro m hm
    obtain ⟨record, -, hdescribed⟩ := List.mem_filterMap.mp hm
    obtain ⟨data, hdescribes⟩ := MatchRecord.described?_eq_some_iff.mp hdescribed
    obtain ⟨path, -, hpath⟩ := hdescribes.path
    exact hpath ▸ fun _ => Path.isStep_of_mem_ofString
  · cases h

/-- What a run of the tool finds comes with paths that are made of steps. -/
theorem ToolRun.isStep_of_mem_found {run : ToolRun} {tree : FileTree} {target : Path}
    {found : List MatchRecord} (h : (run.search tree target).found = .ok found) :
    ∀ m ∈ found, ∀ name ∈ m.path.names, Path.IsStep name := by
  have hfound : matchesOf run.records = .ok found ∨ found = [] := by
    by_cases htarget : tree.exists? target
    · by_cases hstarts : run.starts
      · rw [search, if_pos htarget, outcome, if_pos hstarts] at h
        exact .inl h
      · rw [search, if_pos htarget, outcome, if_neg hstarts] at h
        exact .inr (Except.ok.inj h).symm
    · rw [search, if_neg htarget] at h
      exact .inr (Except.ok.inj h).symm
  rcases hfound with hfound | rfl
  · exact isStep_of_mem_matchesOf hfound
  · simp

namespace ScanState

variable {tree : FileTree} {root : Path} {s s' : ScanState}

/-- What a search gives comes with paths that are made of steps, and so will what the next ones
give. It is not the search that resolves or adds anything. -/
theorem isStep_of_search (htree : tree.root.wellNamed) {target : Path} (htarget : target.IsPlace)
    {globs : ScanGlobs} (hgives : s.method.GivesSteps) {passages : List Passage}
    (h : s.search tree target globs = .ok (passages, s')) :
    (∀ passage ∈ passages, ∀ name ∈ passage.path.names, Path.IsStep name) ∧
      s'.method.GivesSteps ∧ s'.resolver = s.resolver ∧ s'.draft = s.draft := by
  cases hmethod : s.method with
  | walk =>
    rw [search_walk hmethod] at h
    cases hfiles : tree.scannedFiles target globs with
    | error cause =>
      rw [hfiles] at h
      cases h
    | ok files =>
      rw [hfiles] at h
      simp only [Except.ok.injEq, Prod.mk.injEq] at h
      obtain ⟨rfl, rfl⟩ := h
      refine ⟨fun passage hpassage name hname => ?_, ?_, rfl, rfl⟩
      · obtain ⟨file, hfile, hpassage⟩ := List.mem_flatMap.mp hpassage
        rw [FileTree.path_of_mem_passages hpassage] at hname
        have hplace := FileTree.isPlace_of_mem_scannedFiles htree htarget hfiles file hfile
        exact (hplace.names_isName name hname).1
      · exact hgives
  | tool runs further =>
    rw [search, hmethod] at h
    dsimp only at h
    split at h
    · cases h
    · next records hfound =>
      simp only [Except.ok.injEq, Prod.mk.injEq] at h
      obtain ⟨rfl, rfl⟩ := h
      refine ⟨fun passage hpassage => ?_, ?_, ?_⟩
      · obtain ⟨m, hm, rfl⟩ := List.mem_map.mp hpassage
        exact ToolRun.isStep_of_mem_found hfound m hm
      · split <;> simp [SearchMethod.GivesSteps]
      · split <;> exact ⟨rfl, rfl⟩
  | found passages =>
    rw [search, hmethod] at h
    simp only [Except.ok.injEq, Prod.mk.injEq] at h
    obtain ⟨rfl, rfl⟩ := h
    rw [hmethod] at hgives
    refine ⟨?_, ?_, rfl, rfl⟩
    · cases passages with
      | nil => simp
      | cons batch rest => exact hgives batch List.mem_cons_self
    · exact fun batch hbatch => hgives batch (List.mem_of_mem_tail hbatch)

/-- A scan goes on from the root, and its modules so far are named by their keys. -/
structure IsKeyed (root : Path) (s : ScanState) : Prop where
  givesSteps : s.method.GivesSteps
  root_eq : s.resolver.root = root
  draft : s.draft.IsKeyed root

/-- Telling something adds no module. -/
theorem IsKeyed.tell (h : s.IsKeyed root) (notice : Notice) : (s.tell notice).IsKeyed root :=
  ⟨h.givesSteps, h.root_eq, h.draft⟩

/-- A key may be added. -/
theorem IsKeyed.addNode (h : s.IsKeyed root) {key : String} (hkey : Resolver.IsKey root key) :
    IsKeyed root { s with draft := s.draft.addNode key } :=
  ⟨h.givesSteps, h.root_eq, h.draft.addNode hkey⟩

/-- Scanning a target adds keys alone. -/
theorem IsKeyed.scan (h : s.IsKeyed root) (htree : tree.root.wellNamed) (hroot : root.IsPlace)
    {target : Path} (htarget : target.IsPlace) {globs : ScanGlobs} {added : ℕ}
    (hscan : s.scan tree target globs = .ok (added, s')) : s'.IsKeyed root := by
  rw [ScanState.scan] at hscan
  cases hsearch : s.search tree target globs with
  | error failure =>
    rw [hsearch] at hscan
    cases hscan
  | ok found =>
    rw [hsearch] at hscan
    cases hscan
    obtain ⟨hpassages, hgives, hresolver, hdraft⟩ :=
      isStep_of_search htree htarget h.givesSteps hsearch
    have hstart : Ingest.IsKeyed root ⟨found.2.resolver, found.2.draft, found.2.processed, 0⟩ :=
      ⟨hresolver ▸ h.root_eq, hdraft ▸ h.draft⟩
    have hread : (Ingest.addPassages tree _ found.1).IsKeyed root :=
      hstart.addPassages hroot hpassages
    exact ⟨hgives, hread.root_eq, hread.draft⟩

/-- Scanning entries adds keys alone. -/
theorem IsKeyed.scanEntries (h : s.IsKeyed root) (htree : tree.root.wellNamed)
    (hroot : root.IsPlace) {globs : ScanGlobs} {entries keys : List String}
    (hscan : s.scanEntries tree root globs entries = .ok (keys, s')) : s'.IsKeyed root := by
  induction entries generalizing s keys with
  | nil =>
    cases hscan
    exact h
  | cons entry rest ih =>
    rw [ScanState.scanEntries] at hscan
    obtain ⟨there, -, hscan⟩ := exists_of_bind_eq_ok hscan
    cases there with
    | false => exact ih (h.tell _) hscan
    | true =>
      have hplace : (root.join (Path.ofString entry)).resolved.IsPlace :=
        Path.isPlace_resolved (isStep_of_mem_join hroot entry)
      generalize (root.join (Path.ofString entry)).resolved = path at hscan hplace
      have hkey : Resolver.IsKey root (s.resolver.key path) := by
        rw [Resolver.key, h.root_eq]
        exact Resolver.isKey_keyIn hroot fun name hname => (hplace.names_isName name hname).1
      have hrest {s₁ : ScanState} (h₁ : s₁.IsKeyed root)
          (hscan : (ScanState.scanEntries { s₁ with
            draft := s₁.draft.addNode (s.resolver.key path) } tree root globs rest >>=
              fun result => .ok (s.resolver.key path :: result.1, result.2)) = .ok (keys, s')) :
          s'.IsKeyed root := by
        obtain ⟨result, hlast, hkeys⟩ := exists_of_bind_eq_ok hscan
        cases hkeys
        exact ih (h₁.addNode hkey) hlast
      dsimp only at hscan
      rw [if_pos rfl] at hscan
      split at hscan
      · exact hrest h hscan
      · obtain ⟨scanned, hfile, hscan⟩ := exists_of_bind_eq_ok hscan
        exact hrest ((h.scan htree hroot hplace hfile).tell _) hscan

end ScanState

/-- The graph of a project is one of keys, whatever its files are searched with. -/
theorem isKeyed_scanProject {tree : FileTree} (htree : tree.root.wellNamed) {request : ScanRequest}
    (hroot : request.root.IsPlace) (hgives : request.method.GivesSteps) {g : ImportGraph}
    {s : ScanState} (h : scanProject tree request = .ok (g, s)) : g.IsKeyed request.root := by
  rw [scanProject] at h
  obtain ⟨s₀, hstart, h⟩ := exists_of_bind_eq_ok h
  obtain ⟨table, notices, rfl⟩ := ScanRequest.exists_of_start_eq_ok hstart
  obtain ⟨⟨added, s₁⟩, hscan, h⟩ := exists_of_bind_eq_ok h
  have hfirst : ScanState.IsKeyed request.root
      { method := request.method, resolver := .new request.root table, notices } :=
    ⟨hgives, rfl, .empty⟩
  have hwhole := hfirst.scan htree hroot hroot hscan
  dsimp only at h
  split at h
  · cases h
    obtain ⟨nodes, edges, hgraph, hkeys⟩ := (hwhole.tell _).draft.exists_represents
      request.root.toString request.generatedAt
    exact hgraph.isKeyed hkeys
  · obtain ⟨⟨keys, s₂⟩, hentered, h⟩ := exists_of_bind_eq_ok h
    cases h
    have hlast := (hwhole.tell _).scanEntries htree hroot hentered
    obtain ⟨nodes, edges, hgraph, hkeys⟩ := hlast.draft.exists_represents
      request.root.toString request.generatedAt
    exact (hgraph.scopedTo keys).isKeyed fun node hnode => hkeys node (Finset.mem_filter.mp hnode).1

/-- A file never has two keys. However a path is written, its key is its own key, and two paths have
the same key exactly if they lead through the same names. Reading passages and scanning projects give
graphs of keys, so that a file has at most one module, the one under which it is read; and this is
where an import leads that leads to the file. -/
theorem keys_canonical {root : Path} (hroot : root.IsPlace) :
    (∀ p q : String,
      Resolver.IsKey root (Resolver.keyIn root (Path.ofString p)) ∧
      (Resolver.keyIn root (Path.ofString p) = Resolver.keyIn root (Path.ofString q) ↔
        (root.join (Path.ofString p)).normal.names = (root.join (Path.ofString q)).normal.names)) ∧
    (∀ (tree : FileTree) (i : Ingest) (passages : List Passage) (generatedAt : String),
      i.IsKeyed root →
      (∀ passage ∈ passages, ∀ name ∈ passage.path.names, Path.IsStep name) →
        ((Ingest.addPassages tree i passages).draft.build root.toString generatedAt).IsKeyed root) ∧
    (∀ (tree : FileTree) (request : ScanRequest) (g : ImportGraph) (s : ScanState),
      request.root = root → tree.root.wellNamed → request.method.GivesSteps →
        scanProject tree request = .ok (g, s) → g.IsKeyed root) ∧
    (∀ (g : ImportGraph) (tree : FileTree) (path : String) (file : Path), g.IsKeyed root →
      path ∈ g.paths → tree.LeadTogether root (Path.ofString path) file →
        path = Resolver.keyIn root file) ∧
    ∀ (tree : FileTree) (r : Resolver) (passages : List Passage) (generatedAt : String),
      r.root = root → ∀ passage ∈ passages, ∀ item ∈ extractImports passage.text, ∀ file,
        r.Finds tree item.specifier passage.path file →
          let g := (Ingest.ofPassages tree r passages).draft.build root.toString generatedAt
          (r.resolve tree item.specifier passage.path).1 = some (Resolver.keyIn root file) ∧
            Resolver.keyIn root file ∈ g.dependencies (Resolver.keyIn root passage.path) := by
  refine ⟨fun p q => ⟨?_, ?_⟩, ?_, ?_, ?_, ?_⟩
  · exact Resolver.isKey_keyIn hroot fun _ => Path.isStep_of_mem_ofString
  · exact Resolver.keyIn_eq_iff hroot (fun _ => Path.isStep_of_mem_ofString)
      fun _ => Path.isStep_of_mem_ofString
  · intro tree i passages generatedAt hkeyed hpassages
    have hread : (Ingest.addPassages tree i passages).IsKeyed root :=
      hkeyed.addPassages hroot hpassages
    obtain ⟨nodes, edges, hgraph, hkeys⟩ := hread.draft.exists_represents root.toString generatedAt
    exact hgraph.isKeyed hkeys
  · rintro tree request g s rfl htree hgives hscan
    exact isKeyed_scanProject htree hroot hgives hscan
  · intro g tree path file hkeyed hpath hfile
    exact hkeyed.eq_keyIn hroot hpath hfile
  · rintro tree r passages generatedAt rfl passage hpassage item hitem file hfinds g
    have htarget := hfinds.resolve_eq hroot
    have hgraph := (Ingest.keeps_ofPassages tree r passages).holds.build r.root.toString generatedAt
    exact ⟨htarget, (hgraph.mem_dependencies _ _).mpr
      (mem_passageEdges.mpr ⟨passage, hpassage, item, hitem, rfl, htarget⟩)⟩

/-- A file that is imported by a detour has the key that it has when it is named absolutely, and this
is where the import leads. -/
theorem keys_canonical_detour :
    let root : Path := ⟨.root, ["p"]⟩
    let text (s : String) : Entry := .file (Text.encode s.toList)
    let tree : FileTree := ⟨.folder [("p", .folder [
      ("a.ts", text "import '../p/.//b'"), ("b.ts", text "import './a'")])]⟩
    let request : ScanRequest := { root, globs := ⟨["**/*.ts"], []⟩, generatedAt := "" }
    let r : Resolver := .new root none
    let passage : Passage := ⟨⟨.relative, ["a.ts"]⟩, "import '../p/.//b'".toList⟩
    Resolver.keyIn root (Path.ofString "/p/x/..//./b.ts") =
        Resolver.keyIn root (Path.ofString "b.ts") ∧
      (∃ g s, scanProject tree request = .ok (g, s) ∧ g.IsKeyed root) ∧
      (r.resolve tree "../p/.//b" passage.path).1 = some "b.ts" ∧
      "b.ts" ∈ ((Ingest.ofPassages tree r [passage]).draft.build "/p" "").dependencies "a.ts" := by
  intro root text tree request r passage
  have hroot : root.IsPlace := ⟨rfl, by decide +kernel⟩
  obtain ⟨hwritten, -, hproject, -, hleads⟩ := keys_canonical hroot
  have hfiles : tree.scannedFiles root request.globs =
      .ok [⟨.root, ["p", "a.ts"]⟩, ⟨.root, ["p", "b.ts"]⟩] := by decide +kernel
  have hstart : request.start tree = .ok { method := .walk, resolver := r } :=
    ScanRequest.start_eq_ok (by decide +kernel) (by decide +kernel)
  obtain ⟨s, hscan, -⟩ := @scanProject_whole tree request _ _ rfl hstart hfiles
  have hitem : ⟨"../p/.//b", .sideEffectImport, 0, 18, false⟩ ∈ extractImports passage.text := by
    decide +kernel
  have hfinds : r.Finds tree "../p/.//b" passage.path ⟨.root, ["p", "b.ts"]⟩ :=
    ⟨"/p/b.ts", by decide +kernel, ["p", "b.ts"], by decide +kernel, by decide +kernel⟩
  have hkey : Resolver.keyIn root ⟨.root, ["p", "b.ts"]⟩ = "b.ts" := by decide +kernel
  have hsource : Resolver.keyIn root passage.path = "a.ts" := by decide +kernel
  have hpassage := hleads tree r [passage] "" rfl passage List.mem_cons_self _ hitem _ hfinds
  simp only [hkey, hsource] at hpassage
  exact ⟨((hwritten _ _).2).mpr (by decide +kernel),
    ⟨_, s, hscan, hproject tree request _ s rfl (by decide +kernel) trivial hscan⟩,
    hpassage.1, hpassage.2⟩

end ImportAtlas
