import ImportAtlas.Proofs.Graph.Isolated
import ImportAtlas.Proofs.Scan.Entries

/-!
# Entries that the search over the root covers

An entry may be searched a second time, by itself, although the search over the root has read it:
it was read, but no edge made it a module. What such a search finds are edges that are there
already, so it adds none. The result is then cut out of the graph of the whole project, in which
the entries that no edge joins stand by themselves.
-/

namespace ImportAtlas

/-- Files add no edges beyond those of files among which they are. -/
theorem readEdges_subset {tree : FileTree} {r : Resolver} {files others : List Path}
    (h : ∀ file ∈ files, file ∈ others) : readEdges tree r files ⊆ readEdges tree r others := by
  rintro ⟨source, target⟩ hedge
  obtain ⟨file, hfile, hfound⟩ := mem_readEdges.mp hedge
  exact mem_readEdges.mpr ⟨file, h file hfile, hfound⟩

/-- Edges between modules of a set join no others. -/
theorem endsOf_subset {nodes : Finset String} {edges : Finset (String × String)}
    (h : ∀ e ∈ edges, e.1 ∈ nodes ∧ e.2 ∈ nodes) : endsOf edges ⊆ nodes := by
  intro path hpath
  obtain ⟨e, he, rfl | rfl⟩ := mem_endsOf.mp hpath
  · exact (h e he).1
  · exact (h e he).2

namespace ScanState

variable {tree : FileTree} {r : Resolver} {s s' : ScanState} {nodes : Finset String}
  {edges : Finset (String × String)}

/-- Whether an edge is there. -/
theorem Keeps.hasEdge_iff (h : s.Keeps tree r nodes edges) (source target : String) :
    s.draft.hasEdge source target ↔ (source, target) ∈ edges := by
  rw [GraphDraft.hasEdge_iff, h.holds.mem_dependencies]

/-- Where no edges became new, the number that is told of an entry is zero. -/
theorem Recounts.exists_told_zero (h : s.Recounts s' edges edges) :
    ∃ told, s'.notices = s.notices ++ told ∧
      ∀ key added, Notice.entryScanned key added ∈ told → added = 0 := by
  obtain ⟨told, htold, hcount⟩ := h
  have hsum : (entryCounts told).sum = 0 := by omega
  exact ⟨told, htold, fun key added hmem =>
    List.sum_eq_zero_iff_forall_eq_nat.mp hsum added (mem_entryCounts hmem)⟩

/-- Entries whose edges are there already become modules, and no edge becomes new. -/
theorem Keeps.scanEntries_of_subset (h : s.Keeps tree r nodes edges) {root : Path}
    (hroot : root.IsPlace) (globs : ScanGlobs) {entries : List String}
    (hshort : ∀ entry ∈ entries, ¬ tree.isTooLong (root.join (Path.ofString entry)))
    (hread : readEdges tree r (entryFiles tree root entries) ⊆ edges) :
    let keys := (entryFiles tree root entries).map r.key
    ∃ s', s.scanEntries tree root globs entries = .ok (keys, s') ∧
      s'.Keeps tree r (keys.toFinset ∪ nodes) edges ∧ s.Recounts s' edges edges := by
  intro keys
  obtain ⟨s', hscan, hkeeps, hcount⟩ := h.scanEntries hroot globs hshort
  let new := readEdges tree r (soloScans tree r nodes (entryFiles tree root entries))
  have hnew : new ⊆ edges := (readEdges_subset fun _ => mem_of_mem_soloScans).trans hread
  have hends : endsOf new ⊆ nodes := endsOf_subset fun e he => h.holds.ends_mem e (hnew he)
  rw [Finset.union_eq_right.mpr hnew] at hkeeps hcount
  rw [Finset.union_assoc, Finset.union_eq_right.mpr hends] at hkeeps
  exact ⟨s', hscan, hkeeps, hcount⟩

end ScanState

namespace ScanRequest

/-- Every entry that is there is among the files that the search over the root reads. -/
def Covered (tree : FileTree) (request : ScanRequest) : Prop :=
  ∀ files, tree.scannedFiles request.root request.globs = .ok files →
    ∀ file ∈ entryFiles tree request.root request.entries, file ∈ files

/-- The modules that entries become: the ways from the root to those that are there. -/
def entryKeys (tree : FileTree) (request : ScanRequest) : List String :=
  (entryFiles tree request.root request.entries).map (Resolver.keyIn request.root)

end ScanRequest

section Projects

variable {tree : FileTree} {request : ScanRequest}

/-- A scan that fails without entries fails so with any, before the entries are looked at. -/
theorem scanProject_eq_error {failure : ScanFailure}
    (h : scanProject tree { request with entries := [] } = .error failure) (entries : List String) :
    scanProject tree { request with entries } = .error failure := by
  by_cases hentries : entries = []
  · rw [hentries, h]
  · rw [scanProject_eq_bind hentries, h]
    rfl

/-- A scan that succeeds without entries has started and listed the root. -/
theorem exists_of_scanProject_eq_ok (hwalk : request.method = .walk) {g : ImportGraph}
    {s : ScanState} (h : scanProject tree { request with entries := [] } = .ok (g, s)) :
    ∃ s₀ files, request.start tree = .ok s₀ ∧
      tree.scannedFiles request.root request.globs = .ok files := by
  obtain ⟨s₀, hstart, h⟩ := exists_of_bind_eq_ok h
  have hstart : request.start tree = .ok s₀ := hstart
  obtain ⟨scanned, hscan, -⟩ := exists_of_bind_eq_ok h
  cases hfiles : tree.scannedFiles request.root request.globs with
  | error cause =>
    rw [(request.keeps_of_start hwalk hstart).scan_eq_error hfiles] at hscan
    cases hscan
  | ok files => exact ⟨s₀, files, hstart, rfl⟩

/-- With covered entries the edges of the whole project are kept, and what was told of the entries
counts none. -/
theorem scanProject_covered (hroot : request.root.IsPlace) (hwalk : request.method = .walk)
    (hentries : request.entries ≠ []) {s₀ : ScanState} (hstart : request.start tree = .ok s₀)
    {files : List Path} (hfiles : tree.scannedFiles request.root request.globs = .ok files)
    (hshort : ∀ entry ∈ request.entries,
      ¬ tree.isTooLong (request.root.join (Path.ofString entry)))
    (hcovered : ∀ file ∈ entryFiles tree request.root request.entries, file ∈ files) :
    let r := s₀.resolver
    let edges := readEdges tree r files
    let keys := request.entryKeys tree
    ∃ (g : ImportGraph) (s₁ s : ScanState),
      scanProject tree { request with entries := [] } = .ok (g, s₁) ∧
      scanProject tree request = .ok ((g.withModules keys).scopedTo keys, s) ∧
      g.Represents (endsOf edges) edges ∧ s₁.Keeps tree r (endsOf edges) edges ∧
      s.Keeps tree r (keys.toFinset ∪ endsOf edges) edges ∧ s₁.Recounts s edges edges := by
  intro r edges keys
  have hkey : r.key = Resolver.keyIn request.root :=
    congrArg Resolver.keyIn (ScanRequest.root_of_start hstart)
  obtain ⟨s₁, hwhole, hstarted⟩ := scanProject_whole hwalk hstart hfiles
  obtain ⟨s, hscan, hkeeps, hcount⟩ := hstarted.scanEntries_of_subset hroot request.globs hshort
    (readEdges_subset hcovered)
  rw [hkey] at hscan hkeeps
  have hgraph := hstarted.holds.build request.root.toString request.generatedAt
  have hextended := hgraph.withModules keys
  have hsame : s.draft.build request.root.toString request.generatedAt =
      (s₁.draft.build request.root.toString request.generatedAt).withModules keys :=
    (hkeeps.holds.build _ _).eq_of_facts hextended rfl rfl
  refine ⟨_, s₁, s, hwhole, ?_, hgraph, hstarted, hkeeps, hcount⟩
  rw [scanProject_eq_bind hentries, hwhole]
  change Except.map _ (s₁.scanEntries tree request.root request.globs request.entries) = _
  rw [hscan, ← hsame]
  rfl

/-- If no entry is too long to be looked up and all that are there are read by the search over the
root, a scan with entries gives the part of the whole graph that they reach, after those that are no
modules were put into it without edges; where the whole scan fails, both do. So other entries with the
same files give the same graph, in whatever order, repeated or with missing ones among them. The edges
are those of the whole scan, and every entry that is searched by itself is told to add none. -/
theorem scanProject_entries_covered (hroot : request.root.IsPlace) (hwalk : request.method = .walk)
    (hentries : request.entries ≠ [])
    (hshort : ∀ entry ∈ request.entries,
      ¬ tree.isTooLong (request.root.join (Path.ofString entry)))
    (hcovered : request.Covered tree) :
    let keys := request.entryKeys tree
    let whole := scanProject tree { request with entries := [] }
    (scanProject tree request).map Prod.fst =
      whole.map (fun result => (result.1.withModules keys).scopedTo keys) ∧
    (∀ others, others ≠ [] →
      (∀ entry ∈ others, ¬ tree.isTooLong (request.root.join (Path.ofString entry))) →
      (∀ file, file ∈ entryFiles tree request.root others ↔
        file ∈ entryFiles tree request.root request.entries) →
      (scanProject tree { request with entries := others }).map Prod.fst =
        (scanProject tree request).map Prod.fst) ∧
    ∀ g s₁, whole = .ok (g, s₁) → ∃ part s, scanProject tree request = .ok (part, s) ∧
      (∀ source target, s.draft.hasEdge source target = s₁.draft.hasEdge source target) ∧
      ∃ told, s.notices = s₁.notices ++ told ∧
        ∀ key added, Notice.entryScanned key added ∈ told → added = 0 := by
  intro keys whole
  cases hresult : whole with
  | error failure =>
    have hfails := scanProject_eq_error hresult
    have hfail : scanProject tree request = .error failure := hfails request.entries
    exact ⟨by rw [hfail]; rfl, fun others _ _ _ => by rw [hfails, hfail], nofun⟩
  | ok result =>
    obtain ⟨s₀, files, hstart, hfiles⟩ := exists_of_scanProject_eq_ok hwalk hresult
    have hmem := hcovered files hfiles
    obtain ⟨g, s₁, s, hwhole, hscan, hgraph, hstarted, hkeeps, hcount⟩ :=
      scanProject_covered hroot hwalk hentries hstart hfiles hshort hmem
    obtain rfl : result = (g, s₁) := Except.ok.inj (hresult.symm.trans hwhole)
    refine ⟨by rw [hscan]; rfl, fun others hothers hshort' hsame => ?_, ?_⟩
    · let request' : ScanRequest := { request with entries := others }
      have hmem' : ∀ file ∈ entryFiles tree request'.root request'.entries, file ∈ files :=
        fun file hfile => hmem file ((hsame file).mp hfile)
      obtain ⟨g', s₁', s', hwhole', hscan', -⟩ :=
        @scanProject_covered tree request' hroot hwalk hothers s₀ hstart files hfiles hshort' hmem'
      -- Both results are cut out of one whole graph.
      obtain ⟨rfl, -⟩ := Prod.mk.inj (Except.ok.inj (hwhole.symm.trans hwhole'))
      have hkeys (key : String) : key ∈ request'.entryKeys tree ↔ key ∈ keys := by
        simp only [keys, ScanRequest.entryKeys, List.mem_map]
        exact exists_congr fun file => and_congr_left fun _ => hsame file
      rw [hscan, hscan']
      exact congrArg Except.ok (hgraph.scopedTo_withModules_congr hkeys)
    · rintro g' s₁' ⟨⟩
      refine ⟨_, s, hscan, fun source target => ?_, hcount.exists_told_zero⟩
      rw [Bool.eq_iff_iff, hkeeps.hasEdge_iff, hstarted.hasEdge_iff]

end Projects

/-- A module of its own that is asked for twice, with a missing entry between. -/
theorem scanProject_entries_covered_lonely :
    let text (s : String) : Entry := .file (Text.encode s.toList)
    let tree : FileTree := ⟨.folder [("p", .folder [
      ("a.ts", text "import './b'"), ("b.ts", text ""), ("lonely.ts", text ""),
      ("main.ts", text "import './a'")])]⟩
    let request : ScanRequest :=
      { root := ⟨.root, ["p"]⟩, entries := ["lonely.ts", "missing.ts", "a.ts", "lonely.ts"],
        globs := ⟨["**/*.ts"], []⟩, generatedAt := "" }
    let keys := ["lonely.ts", "a.ts", "lonely.ts"]
    let whole := scanProject tree { request with entries := [] }
    request.root.IsPlace ∧ request.method = .walk ∧ request.entries ≠ [] ∧
      (∀ entry ∈ request.entries, ¬ tree.isTooLong (request.root.join (Path.ofString entry))) ∧
      request.Covered tree ∧
      (scanProject tree request).map Prod.fst =
        whole.map (fun result => (result.1.withModules keys).scopedTo keys) ∧
      (scanProject tree { request with entries := ["a.ts", "lonely.ts"] }).map Prod.fst =
        (scanProject tree request).map Prod.fst := by
  intro text tree request keys whole
  have hroot : request.root.IsPlace := ⟨rfl, by decide +kernel⟩
  have hentries : request.entries ≠ [] := by simp [request]
  have hshort : ∀ entry ∈ request.entries,
      ¬ tree.isTooLong (request.root.join (Path.ofString entry)) := by decide +kernel
  have hfiles : tree.scannedFiles request.root request.globs =
      .ok [⟨.root, ["p", "a.ts"]⟩, ⟨.root, ["p", "b.ts"]⟩, ⟨.root, ["p", "lonely.ts"]⟩,
        ⟨.root, ["p", "main.ts"]⟩] := by
    decide +kernel
  have hcovered : request.Covered tree := by
    intro files h
    rw [hfiles] at h
    cases h
    decide +kernel
  have hkeys : request.entryKeys tree = keys := by decide +kernel
  have hsame : ∀ file, file ∈ entryFiles tree request.root ["a.ts", "lonely.ts"] ↔
      file ∈ entryFiles tree request.root request.entries := by
    have hothers : entryFiles tree request.root ["a.ts", "lonely.ts"] =
        [⟨.root, ["p", "a.ts"]⟩, ⟨.root, ["p", "lonely.ts"]⟩] := by decide +kernel
    have hgiven : entryFiles tree request.root request.entries =
        [⟨.root, ["p", "lonely.ts"]⟩, ⟨.root, ["p", "a.ts"]⟩, ⟨.root, ["p", "lonely.ts"]⟩] := by
      decide +kernel
    intro file
    rw [hothers, hgiven]
    refine ⟨List.mem_cons_of_mem _, fun hfile => ?_⟩
    rcases List.mem_cons.mp hfile with rfl | hfile
    · exact List.mem_cons_of_mem _ (List.mem_singleton_self _)
    · exact hfile
  obtain ⟨hpart, hothers, -⟩ := scanProject_entries_covered hroot rfl hentries hshort hcovered
  rw [hkeys] at hpart
  exact ⟨hroot, rfl, hentries, hshort, hcovered, hpart,
    hothers _ (by simp) (by decide +kernel) hsame⟩

/-- Without entries the whole graph is the result, and not the empty part of it that no entry
reaches. -/
theorem not_forall_scanProject_entries_covered :
    ¬ ∀ (tree : FileTree) (request : ScanRequest),
      request.root.IsPlace → request.method = .walk →
      (∀ entry ∈ request.entries, ¬ tree.isTooLong (request.root.join (Path.ofString entry))) →
      request.Covered tree →
        (scanProject tree request).map Prod.fst =
          (scanProject tree { request with entries := [] }).map fun result =>
            (result.1.withModules (request.entryKeys tree)).scopedTo (request.entryKeys tree) := by
  intro hclaim
  let text (s : String) : Entry := .file (Text.encode s.toList)
  let tree : FileTree := ⟨.folder [("p", .folder [
    ("a.ts", text "import './b'"), ("b.ts", text "")])]⟩
  let request : ScanRequest :=
    { root := ⟨.root, ["p"]⟩, entries := [], globs := ⟨["**/*.ts"], []⟩, generatedAt := "" }
  have hroot : request.root.IsPlace := ⟨rfl, by decide +kernel⟩
  have hfiles : tree.scannedFiles request.root request.globs =
      .ok [⟨.root, ["p", "a.ts"]⟩, ⟨.root, ["p", "b.ts"]⟩] := by
    decide +kernel
  have hcovered : request.Covered tree := fun _ _ file hfile => absurd hfile List.not_mem_nil
  have hstart : request.start tree =
      .ok { method := .walk, resolver := .new request.root none } :=
    ScanRequest.start_eq_ok (by decide +kernel) (by decide +kernel)
  obtain ⟨s, hwhole, hkeeps⟩ := scanProject_whole rfl hstart hfiles
  have hgraph := hkeeps.holds.build request.root.toString request.generatedAt
  have hmodule : "a.ts" ∈ (s.draft.build request.root.toString request.generatedAt).paths :=
    (hgraph.mem_paths _).mpr (by decide +kernel)
  have hsame := hclaim tree request hroot rfl (by simp [request]) hcovered
  rw [show scanProject tree request = _ from hwhole] at hsame
  have hpart : s.draft.build request.root.toString request.generatedAt = _ := Except.ok.inj hsame
  rw [hpart, (hgraph.withModules _).mem_paths_scopedTo] at hmodule
  obtain ⟨entry, hentry, -⟩ :=
    ((hgraph.withModules _).mem_reachableFrom _ _).mp (Finset.mem_filter.mp hmodule).2
  exact absurd hentry List.not_mem_nil

end ImportAtlas
