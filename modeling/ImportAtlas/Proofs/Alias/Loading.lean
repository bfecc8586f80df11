import ImportAtlas.Proofs.Alias.Chain
import ImportAtlas.Proofs.Alias.Endings
import ImportAtlas.Proofs.FileTree.Questions
import ImportAtlas.Proofs.Json.Printing

/-!
# Loading an alias table

The table of a configuration is that of the options which its chain gives, each with the value of the
nearest configuration that declares it. There is no table if a configuration of the chain is
faulty, and loading itself fails at a configuration that is too long to be looked up.
-/

namespace ImportAtlas.AliasTable

variable {tree : FileTree} {root config : Path} {given : Option Path}

/-- The aliases among fields, in their order: those whose value is a string, which is the one template
then, or a list, whose strings are the templates. -/
def declaredAliases (fields : List (String × Json)) : List (String × List String) :=
  fields.filterMap fun (pattern, value) =>
    match value with
    | .str template => some (pattern, [template])
    | .arr items => some (pattern, items.filterMap Json.str?)
    | _ => none

/-- The table that options with the given values declare: there is one exactly if the aliases are an
object that is not empty. -/
def tableBy (option : String → Option Json) (config : Path) : Option AliasTable :=
  match option "paths" with
  | some (.obj (first :: rest)) =>
    some {
      baseFolder := ((option "baseUrl").bind Json.str?).map Path.ofString
      paths := declaredAliases (first :: rest)
      source := some config }
  | _ => none

/-- What a table takes from options are the values of two of them. -/
theorem ofOptions_eq (options : CompilerOptions) (config : Path) :
    ofOptions options config = tableBy (fun key => options.lookup key) config := by
  have haliases (fields : List (String × Json)) : (fields.filterMap fun (pattern, value) =>
      (templates? value).map (pattern, ·)) = declaredAliases fields :=
    List.filterMap_congr fun (pattern, value) _ => by cases value <;> rfl
  rw [ofOptions, tableBy]
  split <;> simp only [*]

/-- Loading the table of a file is reading its options and taking the table that they declare. -/
theorem loadFile_fst (tree : FileTree) (config : Path) :
    (loadFile tree config).1 =
      match (optionsFrom tree (tree.root.fileCount + 1) [] config).1 with
      | .error _ => none
      | .ok options => ofOptions options config := by
  rw [loadFile]
  cases hoptions : optionsFrom tree (tree.root.fileCount + 1) [] config with
  | mk options notices =>
    cases options with
    | error cause => rfl
    | ok options => cases hall : ofOptions options config <;> simp [hall]

/-- The table of a file is that of the chain of configurations which it begins. -/
theorem loadFile_extends (hfile : tree.isFile config) :
    ∃ chain, IsExtendsChain tree config chain ∧
      (∀ other, IsExtendsChain tree config other → other = chain) ∧
      optionsLogged tree (tree.root.fileCount + 1) [] config =
        (optionsFrom tree (tree.root.fileCount + 1) [] config, chain) ∧
      ((∃ p ∈ chain, IsFaulty tree p) → (loadFile tree config).1 = none) ∧
      ((∀ p ∈ chain, ¬ IsFaulty tree p) →
        (loadFile tree config).1 = tableBy (nearest tree chain) config) := by
  obtain ⟨hfollows, hgathers⟩ := follows_optionsLogged (tree.root.fileCount + 1) [] config hfile
    List.nodup_nil (by simp) (by simp)
  have hlogged := optionsLogged_fst tree (tree.root.fileCount + 1) [] config
  have hload := loadFile_fst tree config
  rw [hlogged] at hgathers
  refine ⟨_, hfollows.isExtendsChain, fun other => hfollows.isExtendsChain.unique,
    Prod.ext hlogged rfl, ?_⟩
  cases hoptions : (optionsFrom tree (tree.root.fileCount + 1) [] config).1 with
  | error cause =>
    rw [hoptions] at hgathers hload
    obtain ⟨p, hp, hfaulty⟩ := hgathers
    exact ⟨fun _ => hload, fun hsound => absurd hfaulty (hsound p hp)⟩
  | ok options =>
    rw [hoptions] at hgathers hload
    obtain ⟨hsound, hlookup⟩ := hgathers
    refine ⟨fun ⟨p, hp, hfaulty⟩ => absurd hfaulty (hsound p hp), fun _ => ?_⟩
    exact hload.trans ((ofOptions_eq options config).trans
      (congrArg (tableBy · config) (funext hlookup)))

/-- Loading looks up the configuration that is chosen, and reads it if it is a file. -/
theorem load_eq_of_chosen (hchosen : chosenConfig tree root given = .ok (some config)) :
    load tree root given = (tree.ask FileTree.isFile config).map fun isThere =>
      if isThere then loadFile tree config else (none, [.aliasConfigMissing config]) := by
  rw [load, hchosen]
  change (tree.ask FileTree.isFile config >>= _) = _
  cases tree.ask FileTree.isFile config with
  | error cause => rfl
  | ok isThere => cases isThere <;> rfl

/-- The paths at which the configuration of a project is looked for: a given one, or else those of two
names in its root. -/
def configCandidates (root : Path) : Option Path → List Path
  | some config => [config]
  | none => [root.join ⟨.relative, ["tsconfig.json"]⟩, root.join ⟨.relative, ["jsconfig.json"]⟩]

/-- Loading fails if it comes to a configuration that is too long to be looked up. -/
theorem load_of_isTooLong (hreach : tree.Reaches (configCandidates root given) config)
    (hlong : tree.isTooLong config) : load tree root given = .error ⟨config⟩ := by
  cases given with
  | none =>
    have hchosen : chosenConfig tree root none = .error ⟨config⟩ :=
      FileTree.firstFile_eq_error_iff.mpr ⟨hreach, hlong⟩
    rw [load, hchosen]
    rfl
  | some given =>
    obtain rfl := FileTree.eq_of_reaches_singleton hreach
    rw [load_eq_of_chosen rfl, FileTree.ask_of_isTooLong hlong]
    rfl

/-- There is nothing to load if no configuration is there. -/
theorem exists_load_of_passesBy (h : ∀ p ∈ configCandidates root given, tree.PassesBy p) :
    ∃ notices, load tree root given = .ok (none, notices) := by
  cases given with
  | none =>
    have hchosen : chosenConfig tree root none = .ok none := FileTree.firstFile_of_passesBy h
    rw [load, hchosen]
    exact ⟨_, rfl⟩
  | some given =>
    obtain ⟨hshort, hfile⟩ := h given (List.mem_singleton_self given)
    rw [load_eq_of_chosen rfl, FileTree.ask_of_not_isTooLong hshort, eq_false_of_ne_true hfile]
    exact ⟨_, rfl⟩

/-- The configuration that loading comes to is loaded if it is a file. -/
theorem load_of_isFile (hreach : tree.Reaches (configCandidates root given) config)
    (hshort : ¬ tree.isTooLong config) (hfile : tree.isFile config) :
    load tree root given = .ok (loadFile tree config) := by
  have hchosen : chosenConfig tree root given = .ok (some config) := by
    cases given with
    | none => exact FileTree.firstFile_of_reaches hreach hshort hfile
    | some given =>
      rw [FileTree.eq_of_reaches_singleton hreach]
      rfl
  rw [load_eq_of_chosen hchosen, FileTree.ask_of_not_isTooLong hshort, hfile]
  rfl

/-- There is no table if no configuration is there, and loading fails if it comes to one that is too
long to be looked up. Otherwise the table of the first one that is a file is that of the chain of
configurations which it begins: each member extends the next one, up to one that names no base, a base
that is not there, or one that is in the chain. Each of them is read once. If one of them is faulty
there is no table, and otherwise it is the one that the options declare, each with the value of the
nearest configuration which has it. -/
theorem load_extends (tree : FileTree) (root : Path) (given : Option Path) :
    let candidates := configCandidates root given
    ((∀ p ∈ candidates, tree.PassesBy p) →
      ∃ notices, load tree root given = .ok (none, notices)) ∧
    ∀ config, tree.Reaches candidates config →
      (tree.isTooLong config → load tree root given = .error ⟨config⟩) ∧
      (¬ tree.isTooLong config → tree.isFile config →
        ∃ table notices, load tree root given = .ok (table, notices) ∧
          ∃ chain, IsExtendsChain tree config chain ∧
            (∀ other, IsExtendsChain tree config other → other = chain) ∧
            optionsLogged tree (tree.root.fileCount + 1) [] config =
              (optionsFrom tree (tree.root.fileCount + 1) [] config, chain) ∧
            ((∃ p ∈ chain, IsFaulty tree p) → table = none) ∧
            ((∀ p ∈ chain, ¬ IsFaulty tree p) →
              table = tableBy (nearest tree chain) config)) := by
  intro candidates
  refine ⟨exists_load_of_passesBy, fun config hreach => ⟨load_of_isTooLong hreach, ?_⟩⟩
  intro hshort hfile
  exact ⟨_, _, load_of_isFile hreach hshort hfile, loadFile_extends hfile⟩

/-- Two configurations that extend each other: the aliases are those of the first one, and count from
the folder that the second one names. -/
theorem load_extends_circle :
    let text (s : String) : Entry := .file (Text.encode s.toList)
    let tree : FileTree := ⟨.folder [("p", .folder [
      ("base.json", text ("\x7b\x22extends\x22:\x22./tsconfig\x22,\x22compilerOptions\x22:" ++
        "\x7b\x22baseUrl\x22:\x22src\x22,\x22paths\x22:\x7b\x22z\x22:7\x7d\x7d\x7d")),
      ("tsconfig.json", text ("\x7b\x22extends\x22:\x22./base\x22,\x22compilerOptions\x22:" ++
        "\x7b\x22paths\x22:\x7b\x22a\x22:\x22b\x22,\x22c\x22:[\x22d\x22,1]\x7d\x7d\x7d"))])]⟩
    let root : Path := ⟨.root, ["p"]⟩
    let config : Path := ⟨.root, ["p", "tsconfig.json"]⟩
    ∃ notices, load tree root none = .ok
      (some ⟨some ⟨.root, ["p", "src"]⟩, [("a", ["b"]), ("c", ["d"])], some config⟩, notices) := by
  intro text tree root config
  let base : Path := ⟨.root, ["p", "base.json"]⟩
  have hreach : tree.Reaches (configCandidates root none) config := ⟨[], _, rfl, by simp⟩
  obtain ⟨table, notices, hload, chain, hchain, hunique, -, -, htable⟩ :=
    ((load_extends tree root none).2 config hreach).2 (by decide +kernel) (by decide +kernel)
  have hboth : IsExtendsChain tree config [config, base] :=
    ⟨by decide +kernel, by decide +kernel, by decide +kernel, by decide +kernel⟩
  obtain rfl := hunique _ hboth
  rw [htable (by decide +kernel)] at hload
  have hdeclared : tableBy (nearest tree [config, base]) config =
      some ⟨some ⟨.root, ["p", "src"]⟩, [("a", ["b"]), ("c", ["d"])], some config⟩ := by
    decide +kernel
  exact ⟨notices, hdeclared ▸ hload⟩

section LostBase

variable {fields : List (String × Json)} {cause : AliasConfigError}

/-- A configuration whose base cannot be looked up is a chain by itself. -/
theorem isExtendsChain_of_lostBase (hconfig : config.resolved = config)
    (hread : readConfig tree config = .ok fields)
    (hbase : extended? tree config fields = .error cause) :
    IsExtendsChain tree config [config] := by
  have hnone : baseOf? tree config = none := by
    rw [baseOf?_of_read hread, hbase]
    rfl
  exact ⟨by rw [hconfig, List.head?_cons], .singleton _, List.nodup_singleton _, by simp [hnone]⟩

/-- A configuration whose base cannot be looked up has no table. -/
theorem load_of_lostBase (hshort : ¬ tree.isTooLong config) (hfile : tree.isFile config)
    (hconfig : config.resolved = config) (hread : readConfig tree config = .ok fields)
    (hbase : extended? tree config fields = .error cause) :
    (load tree root (some config)).map Prod.fst = .ok none := by
  have hoptions : (optionsFrom tree (tree.root.fileCount + 1) [] config).1 = .error cause := by
    simp only [optionsFrom, hconfig, List.not_mem_nil, if_false, hread, hbase]
    rfl
  have htable : (loadFile tree config).1 = none := by rw [loadFile_fst, hoptions]
  have hreach : tree.Reaches (configCandidates root (some config)) config := ⟨[], [], rfl, by simp⟩
  rw [load_of_isFile hreach hshort hfile]
  exact congrArg Except.ok htable

end LostBase

/-- The options of a chain of one configuration are those that it declares. -/
theorem nearest_singleton {fields options : List (String × Json)}
    (hread : readConfig tree config = .ok fields)
    (hoptions : fields.lookup "compilerOptions" = some (.obj options)) (key : String) :
    nearest tree [config] key =
      (options.lookup key).map fun value =>
        if key = "baseUrl" then countedFrom config value else value := by
  rw [nearest, List.findSome?_singleton, optionOf, objectOf?_of_read hread, Option.bind_some,
    hoptions]
  rfl

section LongName

/-- The characters of a name that is too long to be looked up. -/
def longChars : List Char := List.replicate 300 'a'

/-- A name that is too long to be looked up. -/
def longName : String := String.ofList longChars

/-- The text of a configuration that extends a base with a name that is too long. -/
def longBaseText : List Char :=
  "\x7b\x22extends\x22: \x22./".toList ++ longChars ++
    "\x22, \x22compilerOptions\x22: \x7b\x22paths\x22: \x7b\x22a\x22: [\x22b\x22]\x7d\x7d\x7d".toList

/-- The fields of this configuration. -/
def longBaseFields : List (String × Json) :=
  [("extends", .str ("." ++ "/" ++ longName)),
    ("compilerOptions", .obj [("paths", .obj [("a", .arr [.str "b"])])])]

/-- A project that holds nothing but this configuration. -/
def longBaseTree : FileTree := ⟨.folder [("tmp", .folder [("case", .folder [("project", .folder [
  ("tsconfig.json", .file (Text.encode longBaseText))])])])]⟩

/-- The path of this configuration. -/
def longBaseConfig : Path := ⟨.root, ["tmp", "case", "project", "tsconfig.json"]⟩

/-- The characters of the name are given back by it. -/
@[simp] theorem toList_longName : longName.toList = longChars := String.toList_ofList

/-- The name could be that of a file if it were not so long. -/
theorem isStep_longName : Path.IsStep longName := by
  refine ⟨fun heq => ?_, fun heq => ?_, ?_⟩
  · exact absurd (toList_longName.symm.trans (congrArg String.toList heq)) (by decide +kernel)
  · exact absurd (toList_longName.symm.trans (congrArg String.toList heq)) (by decide +kernel)
  · rw [toList_longName]
    decide +kernel

/-- The configuration can be read. -/
theorem readConfig_longBase : readConfig longBaseTree longBaseConfig = .ok longBaseFields := by
  have htext : longBaseTree.text? longBaseConfig = some longBaseText := by decide +kernel
  have hplain : some (Json.dropTrailingCommas (Json.stripComments longBaseText)) =
      some longBaseText := by decide +kernel
  have hpaths : Json.IsExact (.obj [("a", .arr [.str "b"])]) :=
    .obj (by decide) (by simpa using .arr (by simpa using .str "b"))
  have hoptions : Json.IsExact (.obj [("paths", .obj [("a", .arr [.str "b"])])]) :=
    .obj (by decide) (by simpa using hpaths)
  have hfields : Json.IsExact (.obj longBaseFields) :=
    .obj (by decide) (by simpa [longBaseFields] using ⟨.str _, hoptions⟩)
  have hwritten : Json.writeValue ⟨none, true⟩ 0 (.obj longBaseFields) = longBaseText := by
    simp only [longBaseFields, Json.writeValue, Json.writeFields, Json.writeItems, Json.writeField,
      Json.quote, String.toList_append, toList_longName]
    decide +kernel
  have hread := hfields.read?_print ⟨none, true⟩
  rw [Json.print, String.toList_ofList, hwritten] at hread
  rw [readConfig, htext]
  simp only [Json.readRelaxed?, Option.some.inj hplain, hread]

/-- The options that it declares. -/
theorem lookup_longBaseFields : longBaseFields.lookup "compilerOptions" =
    some (.obj [("paths", .obj [("a", .arr [.str "b"])])]) := rfl

/-- Looking up its base fails. -/
theorem extended?_longBase :
    extended? longBaseTree longBaseConfig longBaseFields = .error .tooLongBase := by
  have hending : ¬ Path.BearsEnding longName.toList := by
    rw [toList_longName]
    decide +kernel
  have hchars : (longName ++ ".json").toList = longChars ++ ".json".toList := by
    rw [String.toList_append, toList_longName]
  have hlong : longBaseTree.isTooLong (basePath longBaseConfig "." (longName ++ ".json")) := by
    rw [basePath_eq (by decide) (isStep_json isStep_longName)]
    refine FileTree.isTooLong_concat (by decide +kernel) ?_ ?_
    · rw [Path.isSound, List.all_append, List.all_cons, hchars]
      decide +kernel
    · rw [hchars]
      decide +kernel
  rw [extended?_of_named (by decide) isStep_longName rfl,
    configPath_of_not_bearsEnding (by decide) isStep_longName hending, if_pos hlong]

/-- Not every chain whose configurations can be read, and whose base folders can be looked up, gives
the options of its configurations: a base whose name is too long to be looked up is not just
missing. -/
theorem not_forall_load_extends :
    ¬ ∀ (tree : FileTree) (root config : Path) (chain : List Path), tree.isFile config →
      IsExtendsChain tree config chain →
        (∀ p ∈ chain, ∃ fields own, readConfig tree p = .ok fields ∧ ownOptions p fields = .ok own) →
          (load tree root (some config)).map Prod.fst =
            .ok (tableBy (nearest tree chain) config) := by
  intro hclaim
  have hfile : longBaseTree.isFile longBaseConfig := by decide +kernel
  have hconfig : longBaseConfig.resolved = longBaseConfig := by decide +kernel
  have hchain : IsExtendsChain longBaseTree longBaseConfig [longBaseConfig] :=
    isExtendsChain_of_lostBase hconfig readConfig_longBase extended?_longBase
  have hown : ownOptions longBaseConfig longBaseFields =
      .ok [("paths", .obj [("a", .arr [.str "b"])])] := by
    rw [ownOptions, lookup_longBaseFields]
    rfl
  have hclaimed := hclaim longBaseTree longBaseConfig.parent longBaseConfig [longBaseConfig] hfile
    hchain (by simpa using ⟨_, readConfig_longBase, _, hown⟩)
  -- Nothing is loaded, though aliases are declared.
  have hpaths : nearest longBaseTree [longBaseConfig] "paths" =
      some (.obj [("a", .arr [.str "b"])]) :=
    nearest_singleton readConfig_longBase lookup_longBaseFields "paths"
  rw [load_of_lostBase (by decide +kernel) hfile hconfig readConfig_longBase extended?_longBase,
    tableBy, hpaths] at hclaimed
  exact absurd hclaimed (by simp)

end LongName

end ImportAtlas.AliasTable
