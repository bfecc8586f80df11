import ImportAtlas.CommandLine.Run
import ImportAtlas.Proofs.Outcome
import ImportAtlas.Proofs.Scan.Keys

/-!
# Files named on the command line

A file on the command line is asked for by a name of its own making: its path below the root, and
outside of the root the text as it stands. Below the root this is the key that the file has in the
graph, however its absolute path is written. Outside of the root it is not, since an absolute path is
nobody's key; the graph holds such a file under a way up from the root, and the question for it is
passed over.
-/

namespace ImportAtlas

namespace Path

/-- Whether an absolute path leads to a folder or to a place below it. -/
def leadsBelow (folder p : Path) : Bool := folder.names.isPrefixOf p.resolved.names

/-- What begins with a list has the whole of it in common with the list. -/
theorem commonLength_of_prefix {left right : List String} (h : left <+: right) :
    commonLength left right = left.length := by
  induction left generalizing right with
  | nil => cases right <;> rfl
  | cons name left ih =>
    obtain ⟨more, rfl⟩ := h
    rw [List.cons_append, commonLength, if_pos rfl, ih (List.prefix_append left more),
      List.length_cons]

/-- The part of a path below a folder is the way to it. -/
theorem below?_resolved {folder : Path} (hfolder : folder.IsPlace) (p : Path) :
    below? folder p.resolved =
      if leadsBelow folder p then some (folder.wayFrom p.resolved) else none := by
  have hanchor : folder.anchor = p.resolved.anchor := hfolder.anchor_eq
  by_cases hbelow : leadsBelow folder p
  · have hcommon : commonLength folder.names p.resolved.names = folder.names.length :=
      commonLength_of_prefix (List.isPrefixOf_iff_prefix.mp hbelow)
    rw [below?, if_pos ⟨hanchor, hbelow⟩, if_pos hbelow, wayFrom, hcommon, Nat.sub_self]
    rfl
  · rw [below?, if_neg (fun h => hbelow h.2), if_neg hbelow]

/-- The text of an absolute path begins with a slash. -/
theorem head?_of_isAbsolute {text : String} (h : (ofString text).isAbsolute) :
    text.toList.head? = some '/' := by
  by_contra hne
  have hanchor : (ofString text).anchor = .relative := anchorOf_of_head_ne hne
  rw [isAbsolute, hanchor] at h
  cases h

/-- The text of a relative path made of steps does not. -/
theorem head?_toString_ne {names : List String} (h : ∀ name ∈ names, IsStep name) :
    (toString ⟨.relative, names⟩).toList.head? ≠ some '/' := by
  by_cases hempty : names = []
  · subst hempty
    decide
  · rw [toString, if_neg (by simp [hempty]), anchorText, String.empty_append,
      String.toList_intercalate]
    exact head?_intercalate_ne h

end Path

namespace Resolver

variable {root p : Path}

/-- The key of an absolute path is the way to where it leads. -/
theorem keyIn_of_isAbsolute (hp : p.isAbsolute) :
    keyIn root p = (root.wayFrom p.resolved).toString := by
  rw [keyIn, Path.join, if_pos hp, Path.normal, hp]
  rfl

/-- No key begins with a slash. -/
theorem IsKey.head?_ne {text : String} (hroot : root.IsPlace) (h : IsKey root text) :
    text.toList.head? ≠ some '/' := by
  have hnames : ∀ name ∈ namesIn root (Path.ofString text), Path.IsName name :=
    isName_of_mem_namesIn hroot fun _ => Path.isStep_of_mem_ofString
  rw [← h]
  exact Path.head?_toString_ne (Path.isStep_of_mem_wayFrom root hnames)

end Resolver

/-- Files that are no modules have no part in the question for entry points. -/
theorem ImportGraph.entryPointsFor_filter (g : ImportGraph) (files : List String) :
    g.entryPointsFor (files.filter g.contains) = g.entryPointsFor files := by
  rw [entryPointsFor, entryPointsFor, closure, closure, List.filter_filter]
  simp only [Bool.and_self]

namespace CommandLine.Setting

variable {s : Setting} {root : Path} {text : String}

/-- The text of a path with slashes. -/
def slashed (text : String) : String :=
  String.ofList (text.toList.map fun c => if c = '\\' then '/' else c)

/-- A file that is named by an absolute path goes by its key if it lies below the root, and else by
its text. -/
theorem graphKey_of_isAbsolute (hroot : root.IsPlace) (habsolute : (Path.ofString text).isAbsolute)
    (hsound : (Path.ofString text).isSound) :
    s.graphKey root text = .ok (if root.leadsBelow (Path.ofString text) then
      Resolver.keyIn root (Path.ofString text) else slashed text) := by
  have hlocated : s.locate text = .ok (Path.ofString text).resolved := by
    rw [locate, Path.resolve?, Path.join, if_pos habsolute, if_pos hsound]
  rw [graphKey, hlocated, Resolver.keyIn_of_isAbsolute habsolute]
  dsimp only [bind, Except.bind]
  rw [Path.below?_resolved hroot]
  by_cases hbelow : root.leadsBelow (Path.ofString text)
  · rw [if_pos hbelow, if_pos hbelow]
    rfl
  · rw [if_neg hbelow, if_neg hbelow]
    rfl

/-- The text of an absolute path is the key of no file. -/
theorem not_isKey_slashed (hroot : root.IsPlace) (habsolute : (Path.ofString text).isAbsolute) :
    ¬ Resolver.IsKey root (slashed text) := by
  intro hkey
  refine hkey.head?_ne hroot ?_
  rw [slashed, String.toList_ofList, List.head?_map, Path.head?_of_isAbsolute habsolute]
  rfl

/-- The names that files named by absolute paths go by hold the same modules as the keys of those
below the root. -/
theorem graphKeys_of_isAbsolute (hroot : root.IsPlace) {g : ImportGraph} (hg : g.IsKeyed root)
    {texts : List String} (habsolute : ∀ text ∈ texts, (Path.ofString text).isAbsolute)
    (hsound : ∀ text ∈ texts, (Path.ofString text).isSound) :
    ∃ names, texts.mapM (s.graphKey root) = .ok names ∧ names.filter g.contains =
      ((texts.filter fun text => root.leadsBelow (Path.ofString text)).map fun text =>
        Resolver.keyIn root (Path.ofString text)).filter g.contains := by
  induction texts with
  | nil => exact ⟨[], rfl, rfl⟩
  | cons text texts ih =>
    rw [List.forall_mem_cons] at habsolute hsound
    obtain ⟨names, hnames, hmodules⟩ := ih habsolute.2 hsound.2
    have hname := s.graphKey_of_isAbsolute hroot habsolute.1 hsound.1
    refine ⟨_, by rw [List.mapM_cons, hname, hnames]; rfl, ?_⟩
    by_cases hbelow : root.leadsBelow (Path.ofString text)
    · simp only [List.filter_cons, hbelow, if_true, List.map_cons, hmodules]
    · have hnone : ¬ g.contains (slashed text) := fun hmodule =>
        not_isKey_slashed hroot habsolute.1 (hg.paths _ (ImportGraph.contains_iff.mp hmodule))
      simp only [List.filter_cons, if_neg hbelow, if_neg hnone, hmodules]

/-- A command line asks for a scan of the root of its settings, with a search of its own. -/
theorem request_spec {options : Options} {settings : Settings} {request : ScanRequest}
    (h : s.request options settings = .ok request) :
    request.root = settings.root ∧ request.method.GivesSteps := by
  rw [Setting.request] at h
  obtain ⟨files, -, h⟩ := exists_of_bind_eq_ok h
  obtain ⟨config, -, h⟩ := exists_of_bind_eq_ok h
  cases h
  refine ⟨rfl, ?_⟩
  dsimp only
  split <;> trivial

/-- A question for the entry points of files that are named by absolute paths is answered for the keys
of those that lie at the root or below it. Exactly these go by their keys; a file outside of the root
goes by a name that no module has, and has no part in the answer. -/
theorem runWith_absolute_files {options : Options} {settings : Settings} {request : ScanRequest}
    {g : ImportGraph} {state : ScanState} {texts : List String} (htree : s.tree.root.wellNamed)
    (hroot : settings.root.IsPlace) (hrequest : s.request options settings = .ok request)
    (hscan : scanProject s.tree request = .ok (g, state))
    (hquestion : options.entryPointsFor = some texts)
    (habsolute : ∀ text ∈ texts, (Path.ofString text).isAbsolute)
    (hsound : ∀ text ∈ texts, (Path.ofString text).isSound) :
    let root := settings.root
    let key (text : String) := Resolver.keyIn root (Path.ofString text)
    let below (text : String) := root.leadsBelow (Path.ofString text)
    (∀ text ∈ texts, (s.graphKey root text = .ok (key text) ↔ below text) ∧
      (¬ below text → ∃ name, s.graphKey root text = .ok name ∧ name ∉ g.paths)) ∧
    s.runWith options settings = s.deliver options (reportsOf options state.notices)
      (Json.print ⟨some 2, true⟩ (.strings (g.entryPointsFor ((texts.filter below).map key)))) := by
  intro root key below
  obtain ⟨hrequested, hgives⟩ := request_spec hrequest
  have hkeyed : g.IsKeyed root := by
    have hplace : request.root.IsPlace := hrequested ▸ hroot
    have hscanned := isKeyed_scanProject htree hplace hgives hscan
    rwa [hrequested] at hscanned
  refine ⟨fun text htext => ?_, ?_⟩
  · have hname := s.graphKey_of_isAbsolute hroot (habsolute text htext) (hsound text htext)
    have hslashed := not_isKey_slashed hroot (habsolute text htext)
    by_cases hbelow : below text
    · rw [if_pos hbelow] at hname
      exact ⟨iff_of_true hname hbelow, fun hout => absurd hbelow hout⟩
    · rw [if_neg hbelow] at hname
      have hkey : slashed text ≠ key text := fun heq =>
        hslashed (heq ▸ Resolver.isKey_keyIn hroot fun _ => Path.isStep_of_mem_ofString)
      refine ⟨iff_of_false (fun heq => ?_) hbelow, fun _ => ⟨_, hname, fun hmodule => ?_⟩⟩
      · exact hkey (Except.ok.inj (hname.symm.trans heq))
      · exact hslashed (hkeyed.paths _ hmodule)
  · obtain ⟨names, hnames, hmodules⟩ := s.graphKeys_of_isAbsolute hroot hkeyed habsolute hsound
    have hanswer : s.answer options settings.root g =
        .ok (Json.print ⟨some 2, true⟩ (.strings (g.entryPointsFor names))) := by
      rw [answer, hquestion]
      dsimp only
      rw [hnames]
      rfl
    have hfiles : g.entryPointsFor names = g.entryPointsFor ((texts.filter below).map key) := by
      rw [← g.entryPointsFor_filter names, hmodules, g.entryPointsFor_filter]
    rw [← hfiles]
    simp only [runWith, hrequest, hscan, hanswer, bind, Except.bind]

/-- A file below the root, named by a detour, goes by its key, and one outside of the root does not. -/
theorem runWith_absolute_files_imported :
    let text (s : String) : Entry := .file (Text.encode s.toList)
    let tree : FileTree := ⟨.folder [("p", .folder [("a.ts", text "import '../x'"), ("b.ts", text "")]),
      ("x.ts", text "")]⟩
    let root : Path := ⟨.root, ["p"]⟩
    let s : Setting := ⟨tree, root, ""⟩
    let settings : Settings := { root }
    let options : Options := { entryPointsFor := some ["/x/..//p/./a.ts", "/x.ts"] }
    s.graphKey root "/x/..//p/./a.ts" = .ok "a.ts" ∧
      (∃ name, s.graphKey root "/x.ts" = .ok name ∧ name ≠ "../x.ts") ∧
      ∃ (request : ScanRequest) (g : ImportGraph) (state : ScanState),
        s.request options settings = .ok request ∧ scanProject tree request = .ok (g, state) ∧
        s.runWith options settings = s.deliver options (reportsOf options state.notices)
          (Json.print ⟨some 2, true⟩ (.strings (g.entryPointsFor ["a.ts"]))) := by
  intro text tree root s settings options
  let request : ScanRequest := { root, globs := .ofOptions none none, generatedAt := "" }
  have hroot : root.IsPlace := ⟨rfl, by decide +kernel⟩
  have hrequest : s.request options settings = .ok request := by rfl
  have hfiles : tree.scannedFiles root request.globs =
      .ok [⟨.root, ["p", "a.ts"]⟩, ⟨.root, ["p", "b.ts"]⟩] := by decide +kernel
  have hstart : request.start tree = .ok { method := .walk, resolver := .new root none } :=
    ScanRequest.start_eq_ok (by decide +kernel) (by decide +kernel)
  obtain ⟨state, hscan, hkeeps⟩ := @scanProject_whole tree request _ _ rfl hstart hfiles
  obtain ⟨hnames, hanswer⟩ := runWith_absolute_files (by decide +kernel) hroot hrequest hscan rfl
    (by decide +kernel) (by decide +kernel)
  have hinside : Resolver.keyIn root (Path.ofString "/x/..//p/./a.ts") = "a.ts" := by decide +kernel
  have hkeys : (["/x/..//p/./a.ts", "/x.ts"].filter fun text =>
      settings.root.leadsBelow (Path.ofString text)).map (fun text =>
        Resolver.keyIn settings.root (Path.ofString text)) = ["a.ts"] := by decide +kernel
  refine ⟨?_, ?_, request, _, state, hrequest, hscan, ?_⟩
  · rw [(hnames _ List.mem_cons_self).1.mpr (by decide +kernel)]
    exact congrArg Except.ok hinside
  · obtain ⟨name, hname, hmodule⟩ := (hnames "/x.ts" (by simp)).2 (by decide +kernel)
    refine ⟨name, hname, fun heq => hmodule ?_⟩
    rw [heq, (hkeeps.holds.build root.toString "").mem_paths]
    decide +kernel
  · rw [hanswer, hkeys]

/-- Not every file that has a module goes by its key when it is named by an absolute path. -/
theorem not_forall_runWith_absolute_files :
    ¬ ∀ (s : Setting) (options : Options) (settings : Settings) (request : ScanRequest)
      (g : ImportGraph) (state : ScanState) (text : String),
      s.tree.root.wellNamed → settings.root.IsPlace → s.request options settings = .ok request →
        scanProject s.tree request = .ok (g, state) → options.entryPointsFor = some [text] →
        (Path.ofString text).isAbsolute → (Path.ofString text).isSound →
        s.tree.isFile (Path.ofString text) →
          let key := Resolver.keyIn settings.root (Path.ofString text)
          key ∈ g.paths → s.graphKey settings.root text = .ok key ∧
            s.runWith options settings = s.deliver options (reportsOf options state.notices)
              (Json.print ⟨some 2, true⟩ (.strings (g.entryPointsFor [key]))) := by
  intro hclaim
  let text (s : String) : Entry := .file (Text.encode s.toList)
  let tree : FileTree := ⟨.folder [("p", .folder [("a.ts", text "import '../x'")]),
    ("x.ts", text "")]⟩
  let root : Path := ⟨.root, ["p"]⟩
  let s : Setting := ⟨tree, root, ""⟩
  let settings : Settings := { root }
  let options : Options := { entryPointsFor := some ["/x.ts"] }
  let request : ScanRequest := { root, globs := .ofOptions none none, generatedAt := "" }
  have hrequest : s.request options settings = .ok request := by rfl
  have hfiles : tree.scannedFiles root request.globs = .ok [⟨.root, ["p", "a.ts"]⟩] := by
    decide +kernel
  have hstart : request.start tree = .ok { method := .walk, resolver := .new root none } :=
    ScanRequest.start_eq_ok (by decide +kernel) (by decide +kernel)
  obtain ⟨state, hscan, hkeeps⟩ := @scanProject_whole tree request _ _ rfl hstart hfiles
  have hkey : Resolver.keyIn root (Path.ofString "/x.ts") = "../x.ts" := by decide +kernel
  have hmodule : "../x.ts" ∈ (state.draft.build root.toString "").paths := by
    rw [(hkeeps.holds.build root.toString "").mem_paths]
    decide +kernel
  have hclaimed := hclaim s options settings request _ state "/x.ts" (by decide +kernel)
    ⟨rfl, by decide +kernel⟩ hrequest hscan rfl (by decide +kernel) (by decide +kernel)
    (by decide +kernel) (hkey ▸ hmodule)
  have hname : s.graphKey root "/x.ts" = .ok "/x.ts" := by decide +kernel
  exact absurd (hname.symm.trans hclaimed.1) (by decide +kernel)

end CommandLine.Setting

end ImportAtlas
