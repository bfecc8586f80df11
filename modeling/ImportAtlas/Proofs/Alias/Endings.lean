import ImportAtlas.Alias.Table
import ImportAtlas.Proofs.FileTree.Rewriting
import ImportAtlas.Proofs.Path.Ending

/-!
# Naming a base without its ending

The ending of a base may be left out as long as the rest of its name bears none: the configuration
then extends the same base, and its table is the same. What follows the last dot of a name like
`base.v2` is taken for the ending, though, and the base is passed over if only `base.v2.json` is
there.
-/

namespace ImportAtlas.AliasTable

section Rewritten

variable {tree tree' : FileTree} {place : List String}

/-- Any other configuration reads the same. -/
theorem readConfig_resolved_eq (h : tree.root.SameBut place tree'.root) {p : Path}
    (hother : p.resolved.names ≠ place) :
    readConfig tree p.resolved = readConfig tree' p.resolved := by
  rw [readConfig, readConfig, FileTree.text?_resolved_eq h hother]

/-- A configuration extends the same base. -/
theorem extended?_eq (h : tree.root.SameBut place tree'.root) (config : Path)
    (fields : List (String × Json)) :
    extended? tree config fields = extended? tree' config fields := by
  simp only [extended?, FileTree.isTooLong_eq h, FileTree.isFile_eq h]

/-- The same configuration is found in a folder. -/
theorem findConfig_eq (h : tree.root.SameBut place tree'.root) (root : Path) :
    findConfig tree root = findConfig tree' root := FileTree.firstFile_eq h _

/-- The same configuration is chosen. -/
theorem chosenConfig_eq (h : tree.root.SameBut place tree'.root) (root : Path)
    (given : Option Path) : chosenConfig tree root given = chosenConfig tree' root given := by
  cases given with
  | none => exact findConfig_eq h root
  | some config => rfl

end Rewritten

/-- Two trees that are the same but for the text of one configuration, which extends the same base
in both and declares the same options. -/
structure Interchanged (tree tree' : FileTree) (config : Path) : Prop where
  resolved_eq : config.resolved = config
  sameBut : tree.root.SameBut config.names tree'.root
  reads : ∃ fields fields', readConfig tree config = .ok fields ∧
    readConfig tree' config = .ok fields' ∧
    extended? tree config fields = extended? tree' config fields' ∧
    ownOptions config fields = ownOptions config fields'

namespace Interchanged

variable {tree tree' : FileTree} {config : Path}

/-- The same options hold for every configuration, wherever the one that differs stands in its
chain. -/
theorem optionsFrom_eq (h : Interchanged tree tree' config) (more : ℕ) (seen : List Path)
    (start : Path) : optionsFrom tree more seen start = optionsFrom tree' more seen start := by
  induction more generalizing seen start with
  | zero => rfl
  | succ more ih =>
    rw [optionsFrom, optionsFrom]
    dsimp only
    split
    · rfl
    · by_cases hstart : start.resolved = config
      · obtain ⟨fields, fields', hread, hread', hbase, hown⟩ := h.reads
        rw [hstart, hread, hread']
        simp only [hbase, hown]
        cases extended? tree' config fields' with
        | error cause => rfl
        | ok base =>
          cases base with
          | none => rfl
          | some base => simp only [ih]
      · have hother : start.resolved.names ≠ config.names := by
          intro hnames
          refine hstart ?_
          rw [← h.resolved_eq] at hnames ⊢
          exact congrArg (Path.mk .root) hnames
        rw [readConfig_resolved_eq h.sameBut hother]
        cases readConfig tree' start.resolved with
        | error cause => rfl
        | ok fields =>
          simp only [extended?_eq h.sameBut]
          cases extended? tree' start.resolved fields with
          | error cause => rfl
          | ok base =>
            cases base with
            | none => rfl
            | some base => simp only [ih]

/-- The same table is loaded, with the same notices. -/
theorem load_eq (h : Interchanged tree tree' config) (root : Path) (given : Option Path) :
    load tree root given = load tree' root given := by
  have hfile : tree.isFile = tree'.isFile := funext (FileTree.isFile_eq h.sameBut)
  simp only [load, loadFile, chosenConfig_eq h.sameBut, FileTree.ask_eq h.sameBut hfile,
    h.sameBut.fileCount_eq, h.optionsFrom_eq]

end Interchanged

section Bases

variable {tree : FileTree} {config : Path} {folder name : String}

/-- The path of a base that is named in a folder. -/
def basePath (config : Path) (folder name : String) : Path :=
  config.parent.join (Path.ofString (folder ++ "/" ++ name))

/-- The last name of the path of a base is the name of the base. -/
theorem basePath_eq (hfolder : folder.toList.head? = some '.') (hname : Path.IsStep name) :
    basePath config folder name =
      ⟨config.anchor, config.names.dropLast ++ (Path.ofString folder).names ++ [name]⟩ := by
  rw [basePath, Path.ofString_append_slash hfolder hname, List.append_assoc]
  rfl

/-- A name with the ending of a configuration bears an ending. -/
theorem bearsEnding_json (hname : name ≠ "") : Path.BearsEnding (name ++ ".json").toList :=
  ⟨name.toList, "json".toList, by simp, by simpa using hname, by decide, by decide⟩

/-- A name is a step with the ending of a configuration, too. -/
theorem isStep_json (hname : Path.IsStep name) : Path.IsStep (name ++ ".json") := by
  obtain ⟨hne, -, hslash⟩ := hname
  have hlength : 5 < (name ++ ".json").toList.length := by
    rw [String.toList_append, List.length_append]
    have := List.length_pos_iff.mpr (fun h => hne (String.toList_eq_nil_iff.mp h))
    have : ".json".toList.length = 5 := rfl
    omega
  refine ⟨fun heq => ?_, fun heq => ?_, by simpa using hslash⟩ <;>
  · rw [heq] at hlength
    exact absurd hlength (by decide)

/-- A base whose name bears an ending is looked for by this name. -/
theorem configPath_of_bearsEnding (hfolder : folder.toList.head? = some '.')
    (hname : Path.IsStep name) (hending : Path.BearsEnding name.toList) :
    configPath (basePath config folder name) = basePath config folder name := by
  rw [configPath, if_pos]
  rw [Path.hasEnding_iff, basePath_eq hfolder hname, Path.name_concat]
  exact hending

/-- A base whose name bears no ending is looked for with one. -/
theorem configPath_of_not_bearsEnding (hfolder : folder.toList.head? = some '.')
    (hname : Path.IsStep name) (hending : ¬ Path.BearsEnding name.toList) :
    configPath (basePath config folder name) = basePath config folder (name ++ ".json") := by
  rw [configPath, if_neg, basePath_eq hfolder hname, basePath_eq hfolder (isStep_json hname),
    Path.withEnding_concat hending]
  rw [Path.hasEnding_iff, basePath_eq hfolder hname, Path.name_concat]
  exact hending

/-- The base that a configuration extends when it names one in a folder. -/
theorem extended?_of_named {fields : List (String × Json)}
    (hfolder : folder.toList.head? = some '.') (hname : Path.IsStep name)
    (hfields : fields.lookup "extends" = some (.str (folder ++ "/" ++ name))) :
    extended? tree config fields =
      if tree.isTooLong (configPath (basePath config folder name)) then .error .tooLongBase
      else if tree.isFile (configPath (basePath config folder name)) then
        .ok (some (configPath (basePath config folder name)))
      else .ok none := by
  have hhead : (folder ++ "/" ++ name).toList.head? = some '.' := by
    rw [String.toList_append, String.toList_append, List.head?_append, List.head?_append, hfolder]
    rfl
  have hnames : (basePath config folder name).names ≠ [] := by
    rw [basePath_eq hfolder hname]
    simp
  simp only [extended?, hfields]
  rw [if_pos hhead]
  exact if_neg hnames

/-- A configuration without a base extends none. -/
theorem extended?_of_none {fields : List (String × Json)} (hfields : fields.lookup "extends" = none) :
    extended? tree config fields = .ok none := by
  simp only [extended?, hfields]

/-- The options that a configuration declares are those of one of its fields. -/
theorem ownOptions_congr {fields fields' : List (String × Json)}
    (h : fields.lookup "compilerOptions" = fields'.lookup "compilerOptions") :
    ownOptions config fields = ownOptions config fields' := by
  rw [ownOptions, ownOptions, h]

/-- A text for a configuration in a tree: the configuration can be read, it names the given base or
none, and it has the other fields that are given. -/
def Declares (tree : FileTree) (config : Path) (others : List (String × Json)) (base : Option String)
    (content : List UInt8) : Prop :=
  ∃ fields, readConfig (tree.write config content) config = .ok fields ∧
    fields.lookup "extends" = base.map Json.str ∧
    ∀ key ≠ "extends", fields.lookup key = others.lookup key

/-- Texts for a configuration that differ in the base they name only are as good as each other if
they come to the same base. -/
theorem Declares.interchanged {others : List (String × Json)} {base base' : Option String}
    {content content' : List UInt8} (hconfig : config.resolved = config)
    (h : Declares tree config others base content) (h' : Declares tree config others base' content')
    (hextended : ∀ fields fields' : List (String × Json),
      fields.lookup "extends" = base.map Json.str → fields'.lookup "extends" = base'.map Json.str →
        extended? (tree.write config content) config fields =
          extended? (tree.write config content) config fields') :
    Interchanged (tree.write config content) (tree.write config content') config := by
  obtain ⟨fields, hread, hbase, hfields⟩ := h
  obtain ⟨fields', hread', hbase', hfields'⟩ := h'
  have hnormal : config.normal = config := by
    have hanchor : config.anchor = .root := by rw [← hconfig]; rfl
    calc config.normal
      _ = Path.normal ⟨.root, config.names⟩ := by rw [← hanchor]
      _ = config := hconfig
  have hsame := FileTree.sameBut_write tree config content content'
  rw [hnormal] at hsame
  refine ⟨hconfig, hsame, fields, fields', hread, hread', ?_, ?_⟩
  · rw [hextended fields fields' hbase hbase', extended?_eq hsame]
  · refine ownOptions_congr ?_
    rw [hfields _ (by decide), hfields' _ (by decide)]

/-- What a configuration without other fields names as its base, if it names one. -/
def baseAlone? : List (String × Json) → Option (Option String)
  | [] => some none
  | [("extends", .str named)] => some (some named)
  | _ => none

/-- A text that does no more than name a base, or none. -/
theorem declares_of_baseAlone? {base : Option String} {content : List UInt8}
    (h : (readConfig (tree.write config content) config).toOption.bind baseAlone? = some base) :
    Declares tree config [] base content := by
  cases hread : readConfig (tree.write config content) config with
  | error cause =>
    rw [hread] at h
    cases h
  | ok fields =>
    rw [hread] at h
    change baseAlone? fields = some base at h
    unfold baseAlone? at h
    split at h
    · cases h
      exact ⟨[], hread, rfl, fun key _ => rfl⟩
    · next named =>
      cases h
      refine ⟨[("extends", .str named)], hread, rfl, fun key hkey => ?_⟩
      rw [List.lookup_cons, beq_false_of_ne hkey]
    · cases h

end Bases

variable {tree : FileTree} {config root : Path} {given : Option Path}
  {others : List (String × Json)} {short : List UInt8}

/-- Leaving out the ending of a base makes no difference to the table that is loaded, nor to the
notices, if the rest of its name bears no ending. If it does, the base is not looked for under its
whole name: unless there is a file of the shorter one, the configuration might as well name no
base. -/
theorem load_base_named (folder name : String) (hconfig : config.resolved = config)
    (hfolder : folder.toList.head? = some '.') (hname : Path.IsStep name)
    (hshort : Declares tree config others (some (folder ++ "/" ++ name)) short) :
    (¬ Path.BearsEnding name.toList →
      ∀ long, Declares tree config others (some (folder ++ "/" ++ (name ++ ".json"))) long →
        load (tree.write config short) root given = load (tree.write config long) root given) ∧
    (Path.BearsEnding name.toList →
      ¬ (tree.write config short).isFile (basePath config folder name) →
      ¬ (tree.write config short).isTooLong (basePath config folder (name ++ ".json")) →
      ∀ bare, Declares tree config others none bare →
        load (tree.write config short) root given = load (tree.write config bare) root given) := by
  refine ⟨fun hending long hlong => ?_, fun hending hmissing hlookup bare hbare => ?_⟩
  · refine (hshort.interchanged hconfig hlong fun fields fields' hfields hfields' => ?_).load_eq _ _
    rw [extended?_of_named hfolder hname hfields,
      extended?_of_named hfolder (isStep_json hname) hfields',
      configPath_of_not_bearsEnding hfolder hname hending,
      configPath_of_bearsEnding hfolder (isStep_json hname) (bearsEnding_json hname.1)]
  · have hshorter : ¬ (tree.write config short).isTooLong (basePath config folder name) := by
      rw [basePath_eq hfolder hname]
      rw [basePath_eq hfolder (isStep_json hname)] at hlookup
      exact fun hlong => hlookup (FileTree.isTooLong_append (by decide) hlong)
    refine (hshort.interchanged hconfig hbare fun fields fields' hfields hfields' => ?_).load_eq _ _
    rw [extended?_of_named hfolder hname hfields, extended?_of_none hfields',
      configPath_of_bearsEnding hfolder hname hending, if_neg hshorter, if_neg hmissing]

/-- A base named without its ending, and one whose name seems to bear another ending. -/
theorem load_base_named_dotted :
    let text (s : String) : List UInt8 := Text.encode s.toList
    let naming (base : String) : List UInt8 :=
      text ("\x7b\x22extends\x22:\x22" ++ base ++ "\x22\x7d")
    let aliases : Entry := .file (text
      "\x7b\x22compilerOptions\x22:\x7b\x22paths\x22:\x7b\x22a\x22:\x22b\x22\x7d\x7d\x7d")
    let tree : FileTree := ⟨.folder [("p", .folder [("base.json", aliases),
      ("base.v2.json", aliases)])]⟩
    let root : Path := ⟨.root, ["p"]⟩
    let config : Path := ⟨.root, ["p", "tsconfig.json"]⟩
    load (tree.write config (naming "./base")) root none =
        load (tree.write config (naming "./base.json")) root none ∧
      load (tree.write config (naming "./base.v2")) root none =
        load (tree.write config (text "\x7b\x7d")) root none := by
  intro text naming aliases tree root config
  have hconfig : config.resolved = config := by decide +kernel
  have hbare : Declares tree config [] none (text "\x7b\x7d") :=
    declares_of_baseAlone? (by decide +kernel)
  have hshort : Declares tree config [] (some ("." ++ "/" ++ "base")) (naming "./base") :=
    declares_of_baseAlone? (by decide +kernel)
  have hlong : Declares tree config [] (some ("." ++ "/" ++ ("base" ++ ".json")))
      (naming "./base.json") := declares_of_baseAlone? (by decide +kernel)
  have hdotted : Declares tree config [] (some ("." ++ "/" ++ "base.v2")) (naming "./base.v2") :=
    declares_of_baseAlone? (by decide +kernel)
  constructor
  · exact (load_base_named "." "base" hconfig (by decide) (by decide) hshort).1
      (by decide) _ hlong
  · exact (load_base_named "." "base.v2" hconfig (by decide) (by decide) hdotted).2 (by decide)
      (by decide +kernel) (by decide +kernel) _ hbare

/-- Not every base that is there is found under its name without the ending. -/
theorem not_forall_load_base_named :
    ¬ ∀ (tree : FileTree) (root config : Path) (given : Option Path) (folder name : String)
      (others : List (String × Json)) (short long : List UInt8),
      config.resolved = config → folder.toList.head? = some '.' → Path.IsName name →
        Declares tree config others (some (folder ++ "/" ++ name)) short →
        Declares tree config others (some (folder ++ "/" ++ (name ++ ".json"))) long →
        chosenConfig (tree.write config short) root given = .ok (some config) →
        (tree.write config short).isFile (basePath config folder (name ++ ".json")) →
        ¬ (tree.write config short).isFile (basePath config folder name) →
          (load (tree.write config short) root given).map Prod.fst =
            (load (tree.write config long) root given).map Prod.fst := by
  intro hclaim
  let text (s : String) : List UInt8 := Text.encode s.toList
  let naming (base : String) : List UInt8 :=
    text ("\x7b\x22extends\x22:\x22" ++ base ++ "\x22\x7d")
  let aliases : Entry := .file (text
    "\x7b\x22compilerOptions\x22:\x7b\x22paths\x22:\x7b\x22a\x22:\x22b\x22\x7d\x7d\x7d")
  let tree : FileTree := ⟨.folder [("p", .folder [("base.v2.json", aliases)])]⟩
  let root : Path := ⟨.root, ["p"]⟩
  let config : Path := ⟨.root, ["p", "tsconfig.json"]⟩
  have hshort : Declares tree config [] (some ("." ++ "/" ++ "base.v2")) (naming "./base.v2") :=
    declares_of_baseAlone? (by decide +kernel)
  have hlong : Declares tree config [] (some ("." ++ "/" ++ ("base.v2" ++ ".json")))
      (naming "./base.v2.json") := declares_of_baseAlone? (by decide +kernel)
  have hclaimed := hclaim tree root config none "." "base.v2" [] _ _ (by decide +kernel) (by decide)
    (by decide) hshort hlong (by decide +kernel) (by decide +kernel) (by decide +kernel)
  have hnone : (load (tree.write config (naming "./base.v2")) root none).map Prod.fst = .ok none := by
    decide +kernel
  have hsome : (load (tree.write config (naming "./base.v2.json")) root none).map Prod.fst ≠
      .ok none := by
    decide +kernel
  exact hsome (hclaimed ▸ hnone)

end ImportAtlas.AliasTable
