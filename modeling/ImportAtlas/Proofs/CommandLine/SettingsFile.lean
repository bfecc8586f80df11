import ImportAtlas.CommandLine.Run
import ImportAtlas.Proofs.FileTree.Questions
import ImportAtlas.Proofs.Outcome

/-!
# Loading the settings of a project

A settings file says what a project asks for key by key: what a key that is left out stands for, and
what each value gives, are stated apart from the order in which the keys are read. Loading gives the
settings that the file says, or refuses the file and says why, unless a path is met that cannot be
looked up; a run that gets no settings has failed with a report, and in that one case breaks off.
-/

namespace ImportAtlas

namespace Yaml

/-- The tokens of a text that writes one entry, whose value stands in quotes. -/
def entryTokens (key value : String) : List Token :=
  [.blockMappingStart, .key, .scalar key.toList true, .value, .scalar value.toList false, .blockEnd]

/-- A text that writes one entry has a mapping as its value. -/
theorem read_entry {text : List Char} {key value : String}
    (htokens : (Token.ofText text).toOption = some (entryTokens key value))
    (hkey : Tag.ofForm key.toList = .text) :
    read text = .ok (.mapping [(.str key, .str value)]) := by
  have htokens : Token.ofText text = .ok (entryTokens key value) := by
    cases h : Token.ofText text <;> simp_all [Except.toOption]
  let node (tag : Tag) : Node := .mapping .mapping [(.scalar tag key.toList, .scalar .text value.toList)]
  have hnode : Node.ofText text = .ok (some (node (Tag.ofForm key.toList))) := by
    unfold Node.ofText
    rw [htokens]
    rfl
  rw [hkey] at hnode
  have hmerged : mergedEntries scalarDepth [(.scalar .text key.toList, .scalar .text value.toList)] =
      .ok [(.scalar .text key.toList, .scalar .text value.toList)] := rfl
  have htext (s : List Char) : scalarText? scalarDepth (.scalar .text s) = some s := rfl
  simp [read, hnode, node, checkScalar, checkLevels, levels, levelsOfEntries, levelsOfEntry, ofNode,
    checkContent, checkEntries, hmerged, htext, Node.tag, Except.toOption, needText, Tag.isKey, bind,
    Except.bind, pure, Except.pure]

end Yaml

namespace Settings

/-- The value of a key, or what holds without the key. -/
def Holds {α : Type} (entries : List (Yaml × Yaml)) (key : String) (default : α)
    (Gives : Yaml → α → Prop) (a : α) : Prop :=
  match Yaml.get? entries key with
  | none => a = default
  | some value => Gives value a

/-- The texts that a value gives. -/
inductive GivesTexts : Yaml → List String → Prop
  | one (s : String) : GivesTexts (.str s) [s]
  | several (texts : List String) : GivesTexts (.list (texts.map .str)) texts

/-- The path that a value gives in a folder. -/
inductive GivesPath (folder : Path) : Yaml → Option Path → Prop
  | null : GivesPath folder .null none
  | text {s : String} (hsound : (folder.join (Path.ofString s)).isSound) :
      GivesPath folder (.str s) (some (folder.join (Path.ofString s)).resolved)

/-- The backend that a value gives. -/
inductive GivesBackend : Yaml → Backend → Prop
  | null : GivesBackend .null .auto
  | name (b : Backend) : GivesBackend (.str b.name) b

/-- Settings that the entries of a file say. -/
structure Reflects (root file : Path) (entries : List (Yaml × Yaml)) (settings : Settings) :
    Prop where
  root : settings.root = root
  source : settings.source = some file
  entryPoints : Holds entries "entry_points" [] GivesTexts settings.entryPoints
  includes : Holds entries "include" defaultIncludes GivesTexts settings.includes
  excludes : Holds entries "exclude" defaultExcludes GivesTexts settings.excludes
  aliasConfig : Holds entries "tsconfig" none (GivesPath file.parent) settings.aliasConfig
  backend : Holds entries "backend" .auto GivesBackend settings.backend

/-- A path that cannot be looked up, at a key before which nothing is wrong. -/
structure NamesUnsound (file : Path) (entries : List (Yaml × Yaml)) : Prop where
  entryPoints : ∃ texts, Holds entries "entry_points" [] GivesTexts texts
  includes : ∃ texts, Holds entries "include" defaultIncludes GivesTexts texts
  excludes : ∃ texts, Holds entries "exclude" defaultExcludes GivesTexts texts
  aliasConfig : ∃ s, Yaml.get? entries "tsconfig" = some (.str s) ∧
    ¬ (file.parent.join (Path.ofString s)).isSound

/-- The entries that a file holds: those of its mapping, or none if its text is empty. -/
def HasEntries (tree : FileTree) (file : Path) (entries : List (Yaml × Yaml)) : Prop :=
  ∃ text, tree.text? file = some text ∧
    (Yaml.read text = .ok .null ∧ entries = [] ∨ Yaml.read text = .ok (.mapping entries))

/-- What each fault says about the file that is refused for it. -/
def Shows (tree : FileTree) (file : Path) : SettingsFault → Prop
  | .unreadable => tree.text? file = none
  | .notYaml cause => ∃ text, tree.text? file = some text ∧ Yaml.read text = .error cause
  | .notMapping => ∃ text value, tree.text? file = some text ∧ Yaml.read text = .ok value ∧
      value ≠ .null ∧ ∀ entries, value ≠ .mapping entries
  | .notTexts key => key ∈ ["entry_points", "include", "exclude"] ∧
      ∃ entries value, HasEntries tree file entries ∧ Yaml.get? entries key = some value ∧
        ∀ texts, ¬ GivesTexts value texts
  | .notText key => key = "tsconfig" ∧
      ∃ entries value, HasEntries tree file entries ∧ Yaml.get? entries key = some value ∧
        value ≠ .null ∧ ∀ s, value ≠ .str s
  | .unknownBackend => ∃ entries value, HasEntries tree file entries ∧
      Yaml.get? entries "backend" = some value ∧ ∀ b, ¬ GivesBackend value b

/-- The settings of a project: what its settings file says, and the defaults without one. -/
def Holding (tree : FileTree) (root : Path) (given : Option Path) (settings : Settings) : Prop :=
  match chosenFile tree root given with
  | .error _ => False
  | .ok none => settings = { root }
  | .ok (some file) =>
    file.isSound ∧ ∃ entries, HasEntries tree file entries ∧ Reflects root file entries settings

/-- Whether the settings file, or a path that it names, cannot be looked up. -/
def MeetsUnsound (tree : FileTree) (root : Path) (given : Option Path) : Prop :=
  ∃ file, chosenFile tree root given = .ok (some file) ∧
    (¬ file.isSound ∨ ∃ entries, HasEntries tree file entries ∧ NamesUnsound file entries)

/-- Whether the search for a settings file in the root comes to a path that is too long to be looked
up. -/
def MeetsTooLong (tree : FileTree) (root : Path) (given : Option Path) (path : Path) : Prop :=
  given = none ∧ tree.Reaches (fileNames.map fun name => root.join ⟨.relative, [name]⟩) path ∧
    tree.isTooLong path

/-- Whether the text of the settings file either has a value or is not YAML, so that each scalar in
it fits its tag. -/
def FitsTags (tree : FileTree) (root : Path) (given : Option Path) : Prop :=
  ∀ file, chosenFile tree root given = .ok (some file) → ∀ text, tree.text? file = some text →
    ∀ cause, Yaml.read text = .error cause → cause = .malformed

variable {tree : FileTree} {root file : Path} {given : Option Path} {key : String}
  {entries : List (Yaml × Yaml)} {settings : Settings} {cause : SettingsError}

section Values

/-- Each text among texts is one that is listed. -/
theorem mapM_text_eq_some {items : List Yaml} {texts : List String} :
    (items.mapM fun item => match item with
      | .str s => some s
      | _ => none) = some texts ↔ items = texts.map .str := by
  induction items generalizing texts with
  | nil => cases texts <;> simp
  | cons item items ih =>
    rw [List.mapM_cons]
    cases item with
    | str s => cases texts <;> simp [Option.bind_eq_some_iff, ih, and_comm]
    | _ => cases texts <;> simp

/-- The texts of a value are those that it gives. -/
theorem texts?_eq_some {value : Yaml} {texts : List String} :
    texts? value = some texts ↔ GivesTexts value texts := by
  constructor
  · intro h
    cases value with
    | str s =>
      cases h
      exact .one s
    | list items =>
      rw [mapM_text_eq_some.mp h]
      exact .several texts
    | _ => cases h
  · rintro (_ | _)
    · rfl
    · exact mapM_text_eq_some.mpr rfl

/-- A backend is found by its name alone. -/
theorem ofName?_eq_some {name : String} {b : Backend} :
    Backend.ofName? name = some b ↔ name = b.name := by
  constructor
  · intro h
    have hname := List.find?_some h
    exact (beq_iff_eq.mp hname).symm
  · rintro rfl
    exact Backend.ofName?_name b

end Values

section Keys

/-- The texts of a key are read exactly if its value gives them. -/
theorem textsAt_eq_ok {default texts : List String} :
    textsAt file entries key default = .ok texts ↔ Holds entries key default GivesTexts texts := by
  unfold textsAt Holds
  cases Yaml.get? entries key with
  | none => simp [eq_comm]
  | some value =>
    simp only [← texts?_eq_some]
    cases texts? value <;> simp

/-- A key of texts is refused for its value alone. -/
theorem textsAt_eq_error {default : List String}
    (h : textsAt file entries key default = .error cause) :
    cause = .refused file (.notTexts key) ∧
      ∃ value, Yaml.get? entries key = some value ∧ ∀ texts, ¬ GivesTexts value texts := by
  unfold textsAt at h
  cases hvalue : Yaml.get? entries key with
  | none => simp [hvalue] at h
  | some value =>
    cases htexts : texts? value with
    | none =>
      simp only [hvalue, htexts, Except.error.injEq] at h
      refine ⟨h.symm, value, rfl, fun texts hgives => ?_⟩
      simp [texts?_eq_some.mpr hgives] at htexts
    | some texts => simp [hvalue, htexts] at h

/-- The path at its key is read exactly if its value gives it. -/
theorem aliasConfigAt_eq_ok {path : Option Path} :
    aliasConfigAt file entries = .ok path ↔
      Holds entries "tsconfig" none (GivesPath file.parent) path := by
  unfold aliasConfigAt Holds
  cases Yaml.get? entries "tsconfig" with
  | none => simp [eq_comm]
  | some value =>
    cases value with
    | null =>
      constructor
      · intro h
        cases h
        exact .null
      · rintro ⟨⟩
        rfl
    | str s =>
      by_cases hsound : (file.parent.join (Path.ofString s)).isSound
      · simp only [Path.resolve?, hsound, if_true]
        constructor
        · intro h
          cases h
          exact .text hsound
        · rintro ⟨⟩
          rfl
      · simp only [Path.resolve?, hsound]
        constructor
        · intro h
          cases h
        · rintro (_ | h)
          exact absurd h hsound
    | _ =>
      constructor
      · intro h
        cases h
      · rintro ⟨⟩

/-- Without a path at its key there is a text whose path cannot be looked up, or no text. -/
theorem aliasConfigAt_eq_error (h : aliasConfigAt file entries = .error cause) :
    (cause = .unsoundPath ∧ ∃ s, Yaml.get? entries "tsconfig" = some (.str s) ∧
        ¬ (file.parent.join (Path.ofString s)).isSound) ∨
      cause = .refused file (.notText "tsconfig") ∧
        ∃ value, Yaml.get? entries "tsconfig" = some value ∧ value ≠ .null ∧ ∀ s, value ≠ .str s := by
  unfold aliasConfigAt at h
  cases hvalue : Yaml.get? entries "tsconfig" with
  | none => simp [hvalue] at h
  | some value =>
    cases value with
    | null => simp [hvalue] at h
    | str s =>
      by_cases hsound : (file.parent.join (Path.ofString s)).isSound
      · simp [hvalue, Path.resolve?, hsound] at h
      · simp only [hvalue, Path.resolve?, hsound] at h
        cases h
        exact .inl ⟨rfl, s, rfl, hsound⟩
    | _ =>
      simp only [hvalue] at h
      cases h
      exact .inr ⟨rfl, _, rfl, by simp⟩

/-- The backend at its key is read exactly if its value gives it. -/
theorem backendAt_eq_ok {b : Backend} :
    backendAt file entries = .ok b ↔ Holds entries "backend" .auto GivesBackend b := by
  unfold backendAt Holds
  cases Yaml.get? entries "backend" with
  | none => simp [eq_comm]
  | some value =>
    cases value with
    | null =>
      constructor
      · intro h
        cases h
        exact .null
      · rintro ⟨⟩
        rfl
    | str name =>
      constructor
      · intro h
        cases hname : Backend.ofName? name with
        | none => simp [hname] at h
        | some b' =>
          simp only [hname] at h
          cases h
          rw [ofName?_eq_some.mp hname]
          exact .name b
      · rintro (_ | _)
        simp [Backend.ofName?_name]
    | _ =>
      constructor
      · intro h
        cases h
      · rintro ⟨⟩

/-- A backend is refused if its value gives none. -/
theorem backendAt_eq_error (h : backendAt file entries = .error cause) :
    cause = .refused file .unknownBackend ∧
      ∃ value, Yaml.get? entries "backend" = some value ∧ ∀ b, ¬ GivesBackend value b := by
  have hnone (b : Backend) : ¬ Holds entries "backend" .auto GivesBackend b := by
    intro hb
    rw [backendAt_eq_ok.mpr hb] at h
    cases h
  unfold backendAt at h
  cases hvalue : Yaml.get? entries "backend" with
  | none => simp [hvalue] at h
  | some value =>
    simp only [Holds, hvalue] at hnone
    refine ⟨?_, value, rfl, hnone⟩
    cases value with
    | null => simp [hvalue] at h
    | str name =>
      cases hname : Backend.ofName? name <;> simp only [hvalue, hname] at h <;> cases h
      rfl
    | _ =>
      simp only [hvalue] at h
      cases h
      rfl

end Keys

section Entries

/-- The entries of a file are read exactly if it says the settings. -/
theorem ofEntries_eq_ok :
    ofEntries root file entries = .ok settings ↔ Reflects root file entries settings := by
  constructor
  · intro h
    obtain ⟨entryPoints, hentryPoints, h⟩ := exists_of_bind_eq_ok h
    obtain ⟨includes, hincludes, h⟩ := exists_of_bind_eq_ok h
    obtain ⟨excludes, hexcludes, h⟩ := exists_of_bind_eq_ok h
    obtain ⟨aliasConfig, haliasConfig, h⟩ := exists_of_bind_eq_ok h
    obtain ⟨backend, hbackend, h⟩ := exists_of_bind_eq_ok h
    cases h
    exact ⟨rfl, rfl, textsAt_eq_ok.mp hentryPoints, textsAt_eq_ok.mp hincludes,
      textsAt_eq_ok.mp hexcludes, aliasConfigAt_eq_ok.mp haliasConfig, backendAt_eq_ok.mp hbackend⟩
  · rintro ⟨rfl, hsource, hentryPoints, hincludes, hexcludes, haliasConfig, hbackend⟩
    simp only [ofEntries, textsAt_eq_ok.mpr hentryPoints, textsAt_eq_ok.mpr hincludes,
      textsAt_eq_ok.mpr hexcludes, aliasConfigAt_eq_ok.mpr haliasConfig,
      backendAt_eq_ok.mpr hbackend, ← hsource]
    rfl

/-- A path that cannot be looked up ends the reading where everything before it is right. -/
theorem NamesUnsound.ofEntries (h : NamesUnsound file entries) :
    ofEntries root file entries = .error .unsoundPath := by
  obtain ⟨⟨entryPoints, hentryPoints⟩, ⟨includes, hincludes⟩, ⟨excludes, hexcludes⟩, s, hs, hsound⟩ :=
    h
  have hconfig : aliasConfigAt file entries = .error .unsoundPath := by
    simp [aliasConfigAt, hs, Path.resolve?, hsound]
  simp only [Settings.ofEntries, textsAt_eq_ok.mpr hentryPoints, textsAt_eq_ok.mpr hincludes,
    textsAt_eq_ok.mpr hexcludes, hconfig]
  rfl

/-- Entries that are not read hold a path that cannot be looked up or show the fault. -/
theorem ofEntries_eq_error (hentries : HasEntries tree file entries)
    (h : ofEntries root file entries = .error cause) :
    (cause = .unsoundPath ∧ NamesUnsound file entries) ∨
      ∃ fault, cause = .refused file fault ∧ Shows tree file fault := by
  have hlisted {key : String} {default : List String}
      (hkey : key ∈ ["entry_points", "include", "exclude"])
      (h : textsAt file entries key default = .error cause) :
      ∃ fault, cause = .refused file fault ∧ Shows tree file fault := by
    obtain ⟨hcause, value, hvalue, hnone⟩ := textsAt_eq_error h
    exact ⟨_, hcause, hkey, entries, value, hentries, hvalue, hnone⟩
  obtain h | ⟨entryPoints, hentryPoints, h⟩ := error_or_of_bind_eq_error h
  · exact .inr (hlisted (by simp) h)
  obtain h | ⟨includes, hincludes, h⟩ := error_or_of_bind_eq_error h
  · exact .inr (hlisted (by simp) h)
  obtain h | ⟨excludes, hexcludes, h⟩ := error_or_of_bind_eq_error h
  · exact .inr (hlisted (by simp) h)
  obtain h | ⟨aliasConfig, haliasConfig, h⟩ := error_or_of_bind_eq_error h
  · obtain ⟨hcause, hs⟩ | ⟨hcause, value, hvalue, hnone⟩ := aliasConfigAt_eq_error h
    · exact .inl ⟨hcause, ⟨entryPoints, textsAt_eq_ok.mp hentryPoints⟩,
        ⟨includes, textsAt_eq_ok.mp hincludes⟩, ⟨excludes, textsAt_eq_ok.mp hexcludes⟩, hs⟩
    · exact .inr ⟨_, hcause, rfl, entries, value, hentries, hvalue, hnone⟩
  obtain h | ⟨backend, hbackend, h⟩ := error_or_of_bind_eq_error h
  · obtain ⟨hcause, value, hvalue, hnone⟩ := backendAt_eq_error h
    exact .inr ⟨_, hcause, entries, value, hentries, hvalue, hnone⟩
  · cases h

end Entries

section Files

/-- The entries of a text are those of its mapping, or none if it is empty. -/
theorem entriesOf_eq_ok {text : List Char} :
    entriesOf file text = .ok entries ↔
      Yaml.read text = .ok .null ∧ entries = [] ∨ Yaml.read text = .ok (.mapping entries) := by
  unfold entriesOf
  cases Yaml.read text with
  | error cause => cases cause <;> simp
  | ok value => cases value <;> simp [eq_comm]

/-- A text that has no entries is not YAML, has another value, or holds a scalar that does not fit
its tag. -/
theorem entriesOf_eq_error {text : List Char} (htext : tree.text? file = some text)
    (h : entriesOf file text = .error cause) :
    (∃ unfit, cause = .unfitScalar unfit ∧ Yaml.read text = .error unfit ∧ unfit ≠ .malformed) ∨
      ∃ fault, cause = .refused file fault ∧ Shows tree file fault := by
  unfold entriesOf at h
  cases hread : Yaml.read text with
  | error unfit =>
    simp only [hread] at h
    cases unfit with
    | malformed =>
      cases h
      exact .inr ⟨_, rfl, text, htext, hread⟩
    | _ =>
      cases h
      exact .inl ⟨_, rfl, rfl, by simp⟩
  | ok value =>
    simp only [hread] at h
    cases value with
    | null => cases h
    | mapping entries => cases h
    | _ =>
      cases h
      exact .inr ⟨_, rfl, text, _, htext, hread, by simp⟩

/-- A file that can be looked up is read exactly if its entries say the settings. -/
theorem readFile_eq_ok (hsound : file.isSound) :
    readFile tree root file = .ok settings ↔
      ∃ entries, HasEntries tree file entries ∧ Reflects root file entries settings := by
  unfold readFile
  rw [if_pos hsound]
  constructor
  · intro h
    cases htext : tree.text? file with
    | none => simp [htext] at h
    | some text =>
      simp only [htext] at h
      obtain ⟨entries, hentries, h⟩ := exists_of_bind_eq_ok h
      exact ⟨entries, ⟨text, htext, entriesOf_eq_ok.mp hentries⟩, ofEntries_eq_ok.mp h⟩
  · rintro ⟨entries, ⟨text, htext, hentries⟩, hreflects⟩
    simp only [htext, entriesOf_eq_ok.mpr hentries, ← ofEntries_eq_ok] at hreflects ⊢
    exact hreflects

/-- Where a path cannot be looked up, the file's or one in it, there are no settings. -/
theorem readFile_eq_unsound (h : ¬ file.isSound ∨
    ∃ entries, HasEntries tree file entries ∧ NamesUnsound file entries) :
    readFile tree root file = .error .unsoundPath := by
  unfold readFile
  by_cases hsound : file.isSound
  · obtain ⟨entries, ⟨text, htext, hentries⟩, hnames⟩ := h.resolve_left (not_not_intro hsound)
    simp only [if_pos hsound, htext, entriesOf_eq_ok.mpr hentries]
    exact hnames.ofEntries
  · rw [if_neg hsound]

/-- A file without settings meets a path that cannot be looked up, holds a scalar that does not fit
its tag or shows the fault that it is refused for. -/
theorem readFile_eq_error (h : readFile tree root file = .error cause) :
    (cause = .unsoundPath ∧ (¬ file.isSound ∨
        ∃ entries, HasEntries tree file entries ∧ NamesUnsound file entries)) ∨
      (∃ text unfit, tree.text? file = some text ∧ Yaml.read text = .error unfit ∧
        unfit ≠ .malformed) ∨
      ∃ fault, cause = .refused file fault ∧ Shows tree file fault := by
  unfold readFile at h
  by_cases hsound : file.isSound
  · rw [if_pos hsound] at h
    cases htext : tree.text? file with
    | none =>
      simp only [htext] at h
      cases h
      exact .inr (.inr ⟨_, rfl, htext⟩)
    | some text =>
      simp only [htext] at h
      obtain h | ⟨entries, hentries, h⟩ := error_or_of_bind_eq_error h
      · obtain ⟨unfit, -, hread, hunfit⟩ | hfault := entriesOf_eq_error htext h
        · exact .inr (.inl ⟨text, unfit, rfl, hread, hunfit⟩)
        · exact .inr (.inr hfault)
      · have hentries : HasEntries tree file entries := ⟨text, htext, entriesOf_eq_ok.mp hentries⟩
        obtain ⟨hcause, hnames⟩ | hfault := ofEntries_eq_error hentries h
        · exact .inl ⟨hcause, .inr ⟨entries, hentries, hnames⟩⟩
        · exact .inr (.inr hfault)
  · rw [if_neg hsound] at h
    cases h
    exact .inl ⟨rfl, .inl hsound⟩

end Files

section Projects

/-- There is no telling which settings file is chosen exactly if the search for one comes to a path
that is too long. -/
theorem chosenFile_eq_error_iff {cause : TooLong} :
    chosenFile tree root given = .error cause ↔ MeetsTooLong tree root given cause.path := by
  cases given with
  | some file => simp [chosenFile, MeetsTooLong]
  | none => simp [chosenFile, findFile, MeetsTooLong, FileTree.firstFile_eq_error_iff]

/-- The settings of a project are those of its settings file. -/
theorem load_eq : load tree root given =
    match chosenFile tree root given with
    | .error cause => .error (.tooLong cause)
    | .ok none => .ok { root }
    | .ok (some file) => readFile tree root file := by
  rw [load]
  cases chosenFile tree root given with
  | error cause => rfl
  | ok file => cases file <;> rfl

/-- The settings that loading gives are those that the project holds. -/
theorem load_eq_ok : load tree root given = .ok settings ↔ Holding tree root given settings := by
  rw [load_eq]
  unfold Holding
  cases chosenFile tree root given with
  | error cause => simp
  | ok found =>
    cases found with
    | none => simp [eq_comm]
    | some file =>
      by_cases hsound : file.isSound
      · simp only [readFile_eq_ok hsound, hsound, true_and]
      · simp [readFile_eq_unsound (.inl hsound), hsound]

/-- Loading breaks off at a path that cannot be looked up. -/
theorem MeetsUnsound.load (h : MeetsUnsound tree root given) :
    load tree root given = .error .unsoundPath := by
  obtain ⟨file, hfile, h⟩ := h
  rw [load_eq, hfile]
  exact readFile_eq_unsound h

/-- Loading breaks off at a path that is too long. -/
theorem MeetsTooLong.load {path : Path} (h : MeetsTooLong tree root given path) :
    load tree root given = .error (.tooLong ⟨path⟩) := by
  have hfile : chosenFile tree root given = .error ⟨path⟩ := chosenFile_eq_error_iff.mpr h
  rw [load_eq, hfile]

/-- Where each scalar fits its tag, loading fails at a path that cannot be looked up or is too long,
or refuses the settings file for a fault that it shows. -/
theorem load_eq_error (hfits : FitsTags tree root given) (h : load tree root given = .error cause) :
    (cause = .unsoundPath ∧ MeetsUnsound tree root given) ∨
      (∃ path, MeetsTooLong tree root given path) ∨
      ∃ file fault, chosenFile tree root given = .ok (some file) ∧ Shows tree file fault ∧
        cause = .refused file fault := by
  rw [load_eq] at h
  cases hfile : chosenFile tree root given with
  | error long => exact .inr (.inl ⟨long.path, chosenFile_eq_error_iff.mp hfile⟩)
  | ok found =>
    cases found with
    | none => simp [hfile] at h
    | some file =>
      simp only [hfile] at h
      obtain ⟨hcause, hunsound⟩ | ⟨text, unfit, htext, hread, hunfit⟩ | ⟨fault, hcause, hshows⟩ :=
        readFile_eq_error h
      · exact .inl ⟨hcause, file, hfile, hunsound⟩
      · exact absurd (hfits file hfile text htext unfit hread) hunfit
      · exact .inr (.inr ⟨file, fault, rfl, hshows, hcause⟩)

/-- The settings of a project whose settings file holds a mapping are those of its entries. -/
theorem load_of_read {text : List Char} (hfile : chosenFile tree root given = .ok (some file))
    (hsound : file.isSound) (htext : tree.text? file = some text)
    (hread : Yaml.read text = .ok (.mapping entries)) :
    load tree root given = ofEntries root file entries := by
  rw [load_eq, hfile]
  simp only [readFile, hsound, if_true, htext, entriesOf, hread]
  rfl

/-- Each scalar of a settings text that has a value fits its tag. -/
theorem fitsTags_of_read {text : List Char} {value : Yaml}
    (hfile : chosenFile tree root given = .ok (some file)) (htext : tree.text? file = some text)
    (hread : Yaml.read text = .ok value) : FitsTags tree root given := by
  intro file' hfile' text' htext' cause hcause
  cases hfile.symm.trans hfile'
  cases htext.symm.trans htext'
  cases hread.symm.trans hcause

end Projects

end Settings

namespace CommandLine.Setting

open Settings

/-- A run goes on with the settings that loading gives, and fails with a report if the settings file
is refused. -/
theorem run_eq {s : Setting} {options : Options} {root : Path} {given : Option Path}
    (hroot : s.locate options.root = .ok root) (hfolder : s.tree.ask FileTree.isFolder root = .ok true)
    (hgiven : s.locateIfGiven options.settings = .ok given) :
    s.run options =
      match load s.tree root given with
      | .ok settings => s.runWith options settings
      | .error .unsoundPath => .error .unsoundPath
      | .error (.tooLong cause) => .error (.tooLong cause)
      | .error (.unfitScalar cause) => .error (.unfitScalar cause)
      | .error cause => .ok (.failed [.settings cause]) := by
  simp only [run, hroot, hgiven, hfolder, bind, Except.bind, Except.mapError, if_true]
  rfl

/-- A project gets the settings that it holds, or its settings file is refused for a fault that it
shows, exactly if no path is met that cannot be looked up or is too long for it. A run then goes on
with these settings or has failed with the report of the fault, and breaks off otherwise. -/
theorem load_settles {tree : FileTree} {root : Path} {given : Option Path}
    (hfits : FitsTags tree root given) :
    (∀ settings, load tree root given = .ok settings ↔ Holding tree root given settings) ∧
    ((∃ settings, load tree root given = .ok settings) ∨
      (∃ file fault, chosenFile tree root given = .ok (some file) ∧ Shows tree file fault ∧
        load tree root given = .error (.refused file fault)) ↔
      ¬ MeetsUnsound tree root given ∧ ∀ path, ¬ MeetsTooLong tree root given path) ∧
    ∀ (s : Setting) (options : Options), s.tree = tree → s.locate options.root = .ok root →
      tree.ask FileTree.isFolder root = .ok true → s.locateIfGiven options.settings = .ok given →
      (∀ settings, load tree root given = .ok settings →
        s.run options = s.runWith options settings) ∧
      (∀ file fault, load tree root given = .error (.refused file fault) →
        s.run options = .ok { status := 1, reports := [.settings (.refused file fault)] }) ∧
      (MeetsUnsound tree root given → s.run options = .error .unsoundPath) ∧
      ∀ path, MeetsTooLong tree root given path → s.run options = .error (.tooLong ⟨path⟩) := by
  refine ⟨fun settings => load_eq_ok, ⟨fun hloads => ⟨fun hunsound => ?_, fun path hlong => ?_⟩,
    fun hmeets => ?_⟩, ?_⟩
  · rw [hunsound.load] at hloads
    simp at hloads
  · rw [hlong.load] at hloads
    simp at hloads
  · obtain ⟨hsound, hshort⟩ := hmeets
    cases hload : load tree root given with
    | ok settings => exact .inl ⟨settings, rfl⟩
    | error cause =>
      obtain ⟨-, hunsound⟩ | ⟨path, hlong⟩ | ⟨file, fault, hfile, hshows, rfl⟩ :=
        load_eq_error hfits hload
      · exact absurd hunsound hsound
      · exact absurd hlong (hshort path)
      · exact .inr ⟨file, fault, hfile, hshows, rfl⟩
  · rintro s options rfl hroot hfolder hgiven
    rw [run_eq hroot hfolder hgiven]
    refine ⟨fun settings hload => ?_, fun file fault hload => ?_, fun hunsound => ?_,
      fun path hlong => ?_⟩
    · rw [hload]
    · rw [hload]
      rfl
    · rw [hunsound.load]
    · rw [hlong.load]

/-- A settings file that asks for a backend nobody knows is refused, and the run has failed. -/
theorem load_settles_unknown_backend :
    let text := "backend: \"grep\"\n".toList
    let tree : FileTree := ⟨.folder [("p", .folder [(".modgraph.yml", .file (Text.encode text))])]⟩
    let root : Path := ⟨.root, ["p"]⟩
    let file : Path := ⟨.root, ["p", ".modgraph.yml"]⟩
    let s : Setting := ⟨tree, root, ""⟩
    FitsTags tree root none ∧ load tree root none = .error (.refused file .unknownBackend) ∧
      s.run {} = .ok { status := 1, reports := [.settings (.refused file .unknownBackend)] } := by
  intro text tree root file s
  have hfile : chosenFile tree root none = .ok (some file) := by decide +kernel
  have htext : tree.text? file = some text := by decide +kernel
  have htokens : (Yaml.Token.ofText text).toOption = some (Yaml.entryTokens "backend" "grep") := by
    decide +kernel
  have hread := Yaml.read_entry htokens (by decide +kernel)
  have hfits : FitsTags tree root none := fitsTags_of_read hfile htext hread
  have hload : load tree root none = .error (.refused file .unknownBackend) := by
    rw [load_of_read hfile (by decide +kernel) htext hread]
    rfl
  obtain ⟨-, -, hrun⟩ := load_settles hfits
  have hfolder : tree.ask FileTree.isFolder root = .ok true := by decide +kernel
  exact ⟨hfits, hload, (hrun s {} rfl rfl hfolder rfl).2.1 file _ hload⟩

/-- Loading has more errors than one: a path in a settings file that holds the null character can
neither be resolved nor is the file refused for it. -/
theorem not_forall_load_settles :
    ¬ ∀ (tree : FileTree) (root : Path) (given : Option Path), FitsTags tree root given →
      (∃ settings, load tree root given = .ok settings) ∨
        ∃ file fault, load tree root given = .error (.refused file fault) := by
  intro hclaim
  let text := "tsconfig: \"\\0\"\n".toList
  let tree : FileTree := ⟨.folder [("p", .folder [(".modgraph.yml", .file (Text.encode text))])]⟩
  let root : Path := ⟨.root, ["p"]⟩
  let file : Path := ⟨.root, ["p", ".modgraph.yml"]⟩
  have hfile : chosenFile tree root none = .ok (some file) := by decide +kernel
  have htext : tree.text? file = some text := by decide +kernel
  have htokens : (Yaml.Token.ofText text).toOption = some (Yaml.entryTokens "tsconfig" "\x00") := by
    decide +kernel
  have hread := Yaml.read_entry htokens (by decide +kernel)
  have hload : load tree root none = .error .unsoundPath := by
    rw [load_of_read hfile (by decide +kernel) htext hread]
    rfl
  obtain ⟨settings, hok⟩ | ⟨file, fault, hrefused⟩ :=
    hclaim tree root none (fitsTags_of_read hfile htext hread)
  · cases hload.symm.trans hok
  · cases hload.symm.trans hrefused

end CommandLine.Setting

end ImportAtlas
