import Mathlib.Data.List.Chain
import ImportAtlas.Alias.Table
import ImportAtlas.Proofs.FileTree.Counting
import ImportAtlas.Proofs.Json.Fields

/-!
# Chains of configurations

A configuration extends another one, which may extend a third. Such a chain ends where no base is
named or there, or before a configuration that is in it already. Following it reads each
configuration once, and gives each option the value that the nearest configuration with this option
declares. One configuration that cannot be used spoils the chain.
-/

namespace ImportAtlas

namespace Path

/-- The normal form of a path from the one root is normal. -/
theorem resolved_resolved (p : Path) : p.resolved.resolved = p.resolved := by
  have hdotdot : ".." ∉ p.resolved.names := dotdot_notMem_foldl_normalStep p.names (by simp)
  have hnormal : p.resolved.names.foldl (normalStep true) [] = p.resolved.names :=
    foldl_normalStep true hdotdot []
  exact congrArg (Path.mk .root) hnormal

end Path

namespace AliasTable

section Specification

variable (tree : FileTree) (config : Path)

/-- The object that a configuration holds, if it is text and the text is that of an object. -/
def objectOf? : Option (List (String × Json)) :=
  (tree.text? config).bind fun text => (Json.readRelaxed? text).bind Json.obj?

/-- The base that is named relative to a configuration: the name begins with a dot, and counts from
the folder of the configuration. -/
def namedBase? (fields : List (String × Json)) : Option Path :=
  match fields.lookup "extends" with
  | some (.str named) =>
    if named.toList.head? = some '.' then some (config.parent.join (Path.ofString named)) else none
  | _ => none

/-- A base that looking up fails for: there is no name to put an ending to, or the path is too
long. -/
def IsLost (base : Path) : Prop :=
  base.names = [] ∨ tree.isTooLong (configPath base)

instance (base : Path) : Decidable (IsLost tree base) :=
  inferInstanceAs (Decidable (_ ∨ _))

/-- The base that a configuration extends: the one that its object names, if it can be looked up and
is a file. -/
def baseOf? : Option Path :=
  ((objectOf? tree config).bind (namedBase? config)).bind fun base =>
    if ¬ IsLost tree base ∧ tree.isFile (configPath base) then some (configPath base).resolved
    else none

/-- The chain of a configuration: each member extends the next one, none comes twice, and the last
one extends none or one that is in the chain. -/
structure IsExtendsChain (chain : List Path) : Prop where
  head?_eq : chain.head? = some config.resolved
  linked : chain.IsChain fun p q => baseOf? tree p = some q
  nodup : chain.Nodup
  ends : ∀ last ∈ chain.getLast?, ∀ base ∈ baseOf? tree last, base ∈ chain

/-- A configuration that spoils its chain. -/
inductive IsFaulty : Prop where
  /-- It holds no object. -/
  | unreadable (hread : objectOf? tree config = none)
  /-- The folder that its paths count from cannot be looked up. -/
  | unsoundFolder {fields options : List (String × Json)} {folder : String}
    (hread : objectOf? tree config = some fields)
    (hoptions : fields.lookup "compilerOptions" = some (.obj options))
    (hfolder : options.lookup "baseUrl" = some (.str folder))
    (hunsound : ¬ (config.parent.join (Path.ofString folder)).isSound)
  /-- Its base is one that looking up fails for. -/
  | lostBase {fields : List (String × Json)} {base : Path}
    (hread : objectOf? tree config = some fields)
    (hbase : namedBase? config fields = some base) (hlost : IsLost tree base)

/-- A folder as it counts from the folder of a configuration; any other value stays. -/
def countedFrom : Json → Json
  | .str folder => .str (config.parent.join (Path.ofString folder)).resolved.toString
  | value => value

/-- The value that a configuration declares for an option. The folder that its paths count from
counts from the folder of the configuration. -/
def optionOf (key : String) : Option Json :=
  (objectOf? tree config).bind fun fields =>
    ((fields.lookup "compilerOptions").bind Json.obj?).bind fun options =>
      (options.lookup key).map fun value =>
        if key = "baseUrl" then countedFrom config value else value

end Specification

/-- The value of an option in a chain: that of the nearest configuration that declares it. -/
def nearest (tree : FileTree) (chain : List Path) (key : String) : Option Json :=
  chain.findSome? fun config => optionOf tree config key

section Logging

/-- The object in a configuration, and the configurations read for it. -/
def readLogged (tree : FileTree) (config : Path) :
    Except AliasConfigError (List (String × Json)) × List Path :=
  (readConfig tree config, [config])

/-- The options that hold for a configuration, and the configurations read for them in order. -/
def optionsLogged (tree : FileTree) : ℕ → List Path → Path →
    (Except AliasConfigError CompilerOptions × List Notice) × List Path
  | 0, _, _ => ((.ok [], []), [])
  | more + 1, seen, config =>
    let config := config.resolved
    if config ∈ seen then ((.ok [], [.circularExtends config]), [])
    else
      let (content, log) := readLogged tree config
      match content with
      | .error cause => ((.error cause, []), log)
      | .ok fields =>
        let ((inherited, notices), later) :
            (Except AliasConfigError CompilerOptions × List Notice) × List Path :=
          match extended? tree config fields with
          | .error cause => ((.error cause, []), [])
          | .ok (some base) => optionsLogged tree more (config :: seen) base
          | .ok none => ((.ok [], []), [])
        let options := do
          let inherited ← inherited
          let own ← ownOptions config fields
          return own.foldl (fun options option => Json.setField options option.1 option.2) inherited
        ((options, notices), log ++ later)

/-- The log changes nothing. -/
theorem optionsLogged_fst (tree : FileTree) (more : ℕ) (seen : List Path) (config : Path) :
    (optionsLogged tree more seen config).1 = optionsFrom tree more seen config := by
  induction more generalizing seen config with
  | zero => rfl
  | succ more ih =>
    rw [optionsLogged, optionsFrom]
    dsimp only [readLogged]
    split
    · rfl
    · cases readConfig tree config.resolved with
      | error cause => rfl
      | ok fields =>
        cases hbase : extended? tree config.resolved fields with
        | error cause => simp only [hbase]
        | ok base =>
          cases base with
          | none => simp only [hbase]
          | some base => simp only [hbase, ← ih]

end Logging

section Single

variable {tree : FileTree} {config base : Path} {fields own : CompilerOptions}

/-- Reading a configuration gives the object that it holds, if it holds one. -/
theorem objectOf?_eq (tree : FileTree) (config : Path) :
    objectOf? tree config = (readConfig tree config).toOption := by
  rw [objectOf?, readConfig]
  cases tree.text? config with
  | none => rfl
  | some text =>
    dsimp only [Option.bind_some]
    cases Json.readRelaxed? text with
    | none => rfl
    | some value => cases value <;> rfl

/-- What is read from a configuration is the object that it holds. -/
theorem objectOf?_of_read (h : readConfig tree config = .ok fields) :
    objectOf? tree config = some fields := by
  rw [objectOf?_eq, h]
  rfl

/-- What is extended is the base that is named, if looking it up does not fail and it is a file. -/
theorem extended?_eq_namedBase? (tree : FileTree) (config : Path) (fields : CompilerOptions) :
    extended? tree config fields =
      match namedBase? config fields with
      | none => .ok none
      | some base =>
        if base.names = [] then .error .unnamedBase
        else if tree.isTooLong (configPath base) then .error .tooLongBase
        else if tree.isFile (configPath base) then .ok (some (configPath base))
        else .ok none := by
  rw [extended?, namedBase?]
  cases fields.lookup "extends" with
  | none => rfl
  | some value =>
    cases value with
    | str named =>
      dsimp only
      by_cases hdot : named.toList.head? = some '.'
      · rw [if_pos hdot, if_pos hdot]
      · rw [if_neg hdot, if_neg hdot]
    | _ => rfl

/-- Extending fails for a base that looking up fails for. -/
theorem exists_extended?_eq_error (hbase : namedBase? config fields = some base)
    (hlost : IsLost tree base) : ∃ cause, extended? tree config fields = .error cause := by
  simp only [extended?_eq_namedBase?, hbase]
  by_cases hnames : base.names = []
  · exact ⟨_, if_pos hnames⟩
  · rw [if_neg hnames, if_pos (hlost.resolve_left hnames)]
    exact ⟨_, rfl⟩

/-- A base that looking up does not fail for is extended if it is a file. -/
theorem extended?_of_not_isLost (hbase : namedBase? config fields = some base)
    (hfound : ¬ IsLost tree base) :
    extended? tree config fields =
      .ok (if tree.isFile (configPath base) then some (configPath base) else none) := by
  obtain ⟨hnames, hshort⟩ := not_or.mp hfound
  simp only [extended?_eq_namedBase?, hbase, if_neg hnames, if_neg hshort]
  split <;> rfl

/-- Extending fails only for a base that looking up fails for. -/
theorem exists_isLost_of_extended?_error {cause : AliasConfigError}
    (h : extended? tree config fields = .error cause) :
    ∃ base, namedBase? config fields = some base ∧ IsLost tree base := by
  cases hbase : namedBase? config fields with
  | none =>
    simp only [extended?_eq_namedBase?, hbase] at h
    cases h
  | some base =>
    refine ⟨base, rfl, ?_⟩
    by_contra hfound
    rw [extended?_of_not_isLost hbase hfound] at h
    cases h

/-- The base of a configuration that can be read is the one that is extended. -/
theorem baseOf?_of_read (hread : readConfig tree config = .ok fields) :
    baseOf? tree config =
      (extended? tree config fields).toOption.bind (Option.map Path.resolved) := by
  rw [baseOf?, objectOf?_of_read hread, Option.bind_some]
  cases hbase : namedBase? config fields with
  | none =>
    simp only [extended?_eq_namedBase?, hbase]
    rfl
  | some base =>
    rw [Option.bind_some]
    by_cases hlost : IsLost tree base
    · obtain ⟨cause, hcause⟩ := exists_extended?_eq_error hbase hlost
      rw [hcause, if_neg (not_and_of_not_left _ (not_not_intro hlost))]
      rfl
    · rw [extended?_of_not_isLost hbase hlost]
      by_cases hfile : tree.isFile (configPath base)
      · rw [if_pos ⟨hlost, hfile⟩, if_pos hfile]
        rfl
      · rw [if_neg (not_and_of_not_right _ hfile), if_neg hfile]
        rfl

/-- What is read from a configuration has distinct keys. -/
theorem hasDistinctKeys_of_readConfig (h : readConfig tree config = .ok fields) :
    Json.hasDistinctKeys (.obj fields) := by
  rw [readConfig] at h
  split at h
  · cases h
  · split at h
    · cases h
    · next hvalue =>
      cases h
      exact Json.hasDistinctKeys_of_readRelaxed? hvalue
    · cases h

/-- A base that is extended is a file. -/
theorem isFile_of_extended? (h : extended? tree config fields = .ok (some base)) :
    tree.isFile base := by
  cases hnamed : namedBase? config fields with
  | none =>
    simp only [extended?_eq_namedBase?, hnamed] at h
    cases h
  | some named =>
    by_cases hlost : IsLost tree named
    · obtain ⟨cause, hcause⟩ := exists_extended?_eq_error hnamed hlost
      cases hcause.symm.trans h
    · rw [extended?_of_not_isLost hnamed hlost] at h
      split at h
      · next hfile =>
        rw [← Option.some.inj (Except.ok.inj h)]
        exact hfile
      · cases h

/-- The options that a configuration declares cannot be had if the folder that its paths count from
cannot be looked up. -/
theorem isFaulty_of_ownOptions_error (hread : readConfig tree config = .ok fields)
    {cause : AliasConfigError} (h : ownOptions config fields = .error cause) :
    IsFaulty tree config := by
  rw [ownOptions] at h
  split at h
  · next options hoptions =>
    split at h
    · next folder hfolder =>
      split at h
      · cases h
      · next hnone =>
        have hunsound : ¬ (config.parent.join (Path.ofString folder)).isSound := fun hsound => by
          rw [Path.resolve?, if_pos hsound] at hnone
          cases hnone
        exact .unsoundFolder (objectOf?_of_read hread) hoptions hfolder hunsound
    · cases h
  · cases h

/-- What is extended cannot be had if looking up the base that is named fails. -/
theorem isFaulty_of_extended?_error (hread : readConfig tree config = .ok fields)
    {cause : AliasConfigError} (h : extended? tree config fields = .error cause) :
    IsFaulty tree config := by
  obtain ⟨base, hbase, hlost⟩ := exists_isLost_of_extended?_error h
  exact .lostBase (objectOf?_of_read hread) hbase hlost

/-- A folder that can be looked up counts from the folder of the configuration. -/
theorem toString_resolve? {folder : String} {absolute : Path}
    (h : Path.resolve? config.parent (Path.ofString folder) = some absolute) :
    .str absolute.toString = countedFrom config (.str folder) := by
  rw [Path.resolve?] at h
  split at h
  · cases h
    rfl
  · cases h

/-- The options that a configuration declares have distinct keys and the declared values. -/
theorem ownOptions_spec (hread : readConfig tree config = .ok fields)
    (h : ownOptions config fields = .ok own) :
    (own.map Prod.fst).Nodup ∧ ∀ key, own.lookup key = optionOf tree config key := by
  have hdistinct := hasDistinctKeys_of_readConfig hread
  simp only [optionOf, objectOf?_of_read hread, Option.bind_some]
  rw [ownOptions] at h
  split at h
  · next options hoptions =>
    have hnodup := Json.nodup_keys_of_lookup hdistinct hoptions
    simp only [hoptions, Option.bind_some, Json.obj?]
    split at h
    · next folder hfolder =>
      split at h
      · next absolute habsolute =>
        cases h
        refine ⟨Json.nodup_keys_setField hnodup, fun key => ?_⟩
        rw [Json.lookup_setField]
        by_cases hkey : key = "baseUrl"
        · subst hkey
          rw [if_pos rfl, hfolder, Option.map_some, if_pos rfl, toString_resolve? habsolute]
        · simp [hkey]
      · cases h
    · next hother =>
      cases h
      refine ⟨hnodup, fun key => ?_⟩
      by_cases hkey : key = "baseUrl"
      · subst hkey
        cases hvalue : own.lookup "baseUrl" with
        | none => rfl
        | some value =>
          cases value with
          | str folder => exact absurd hvalue (hother folder)
          | _ => rfl
      · simp [hkey]
  · next hnone =>
    cases h
    refine ⟨List.nodup_nil, fun key => ?_⟩
    cases hvalue : fields.lookup "compilerOptions" with
    | none => rfl
    | some value =>
      cases value with
      | obj options => exact absurd hvalue (hnone options)
      | _ => rfl

end Single

section Chains

variable {tree : FileTree} {config : Path} {chain other : List Path}

/-- What is followed after other configurations were seen: each member extends the next one, none
comes twice or was seen, and the last one extends none or one that was seen or followed. -/
structure Follows (tree : FileTree) (seen : List Path) (config : Path) (chain : List Path) :
    Prop where
  head?_eq : chain.head? = if config ∈ seen then none else some config
  linked : chain.IsChain fun p q => baseOf? tree p = some q
  nodup : chain.Nodup
  fresh : ∀ p ∈ chain, p ∉ seen
  ends : ∀ last ∈ chain.getLast?, ∀ base ∈ baseOf? tree last, base ∈ seen ∨ base ∈ chain

/-- Nothing is followed from a configuration that was seen. -/
theorem Follows.nil {seen : List Path} (h : config ∈ seen) : Follows tree seen config [] where
  head?_eq := by rw [if_pos h]; rfl
  linked := .nil
  nodup := .nil
  fresh := by simp
  ends := by simp

/-- A configuration without a base is followed alone. -/
theorem Follows.single {seen : List Path} (h : config ∉ seen) (hbase : baseOf? tree config = none) :
    Follows tree seen config [config] where
  head?_eq := by rw [if_neg h]; rfl
  linked := .singleton config
  nodup := List.nodup_singleton config
  fresh := by simpa using h
  ends := by simp [hbase]

/-- A configuration is followed by its base. -/
theorem Follows.cons {seen : List Path} {base : Path} (h : config ∉ seen)
    (hbase : baseOf? tree config = some base) (hrest : Follows tree (config :: seen) base chain) :
    Follows tree seen config (config :: chain) where
  head?_eq := by rw [if_neg h]; rfl
  linked := by
    refine List.isChain_cons.mpr ⟨fun next hnext => ?_, hrest.linked⟩
    rw [Option.mem_def, hrest.head?_eq] at hnext
    split at hnext
    · cases hnext
    · rwa [← Option.some.inj hnext]
  nodup := List.nodup_cons.mpr ⟨fun hmem => hrest.fresh config hmem List.mem_cons_self, hrest.nodup⟩
  fresh := by
    rw [List.forall_mem_cons]
    exact ⟨h, fun p hp hseen => hrest.fresh p hp (List.mem_cons_of_mem _ hseen)⟩
  ends := by
    intro last hlast last' hbase'
    cases chain with
    | nil =>
      -- The base was seen, for nothing is followed from it.
      have hseen : base ∈ config :: seen := by
        by_contra hnot
        have hhead := hrest.head?_eq
        rw [if_neg hnot] at hhead
        cases hhead
      obtain rfl : config = last := by simpa using hlast
      obtain rfl : base = last' := Option.some.inj (hbase.symm.trans hbase')
      rcases List.mem_cons.mp hseen with rfl | hseen
      · exact .inr List.mem_cons_self
      · exact .inl hseen
    | cons next rest =>
      rw [List.getLast?_cons_cons] at hlast
      rcases hrest.ends last hlast last' hbase' with hseen | hmem
      · rcases List.mem_cons.mp hseen with rfl | hseen
        · exact .inr List.mem_cons_self
        · exact .inl hseen
      · exact .inr (List.mem_cons_of_mem _ hmem)

/-- What is followed from the start is the chain of a configuration. -/
theorem Follows.isExtendsChain (h : Follows tree [] config.resolved chain) :
    IsExtendsChain tree config chain where
  head?_eq := by rw [h.head?_eq, if_neg List.not_mem_nil]
  linked := h.linked
  nodup := h.nodup
  ends last hlast base hbase := (h.ends last hlast base hbase).resolve_left List.not_mem_nil

/-- Of two ways that go on in only one manner from each place, one goes as far as the other. -/
theorem prefix_or_prefix_of_isChain {α : Type*} {next : α → Option α} {left right : List α}
    (hleft : left.IsChain fun p q => next p = some q)
    (hright : right.IsChain fun p q => next p = some q) (hhead : left.head? = right.head?) :
    left <+: right ∨ right <+: left := by
  induction left generalizing right with
  | nil => exact .inl (List.nil_prefix)
  | cons a left ih =>
    cases right with
    | nil => cases hhead
    | cons b right =>
      obtain rfl : a = b := Option.some.inj hhead
      simp only [List.cons_prefix_cons, true_and]
      rw [List.isChain_cons] at hleft hright
      cases left with
      | nil => exact .inl List.nil_prefix
      | cons c left =>
        cases right with
        | nil => exact .inr List.nil_prefix
        | cons d right =>
          have hnext := (hleft.1 c rfl).symm.trans (hright.1 d rfl)
          exact ih hleft.2 hright.2 hnext

/-- A chain does not go on beyond its end. -/
theorem IsExtendsChain.eq_of_prefix (h : IsExtendsChain tree config chain)
    (h' : IsExtendsChain tree config other) (hbegins : chain <+: other) : other = chain := by
  obtain ⟨rest, rfl⟩ := hbegins
  cases rest with
  | nil => exact List.append_nil chain
  | cons next rest =>
    obtain ⟨last, hlast⟩ : ∃ last, chain.getLast? = some last := by
      cases hlast : chain.getLast? with
      | none =>
        have hhead := h.head?_eq
        rw [List.getLast?_eq_none_iff.mp hlast] at hhead
        cases hhead
      | some last => exact ⟨last, rfl⟩
    have hnext := (List.isChain_append.mp h'.linked).2.2 last hlast next rfl
    exact absurd rfl ((List.nodup_append.mp h'.nodup).2.2 next (h.ends last hlast next hnext) next
      List.mem_cons_self)

/-- A configuration has one chain. -/
theorem IsExtendsChain.unique (h : IsExtendsChain tree config chain)
    (h' : IsExtendsChain tree config other) : other = chain := by
  have hhead := h.head?_eq.trans h'.head?_eq.symm
  rcases prefix_or_prefix_of_isChain h.linked h'.linked hhead with hbegins | hbegins
  · exact h.eq_of_prefix h' hbegins
  · exact (h'.eq_of_prefix h hbegins).symm

end Chains

section Gathering

variable {tree : FileTree} {config : Path} {chain : List Path}

/-- What a chain comes to: an error if one of its configurations is faulty, and otherwise the options
with the values that the nearest configurations declare. -/
def Gathers (tree : FileTree) (chain : List Path) :
    Except AliasConfigError CompilerOptions → Prop
  | .error _ => ∃ config ∈ chain, IsFaulty tree config
  | .ok options => (∀ config ∈ chain, ¬ IsFaulty tree config) ∧
    ∀ key, options.lookup key = nearest tree chain key

/-- A configuration whose parts can all be had is not faulty. -/
theorem not_isFaulty {fields own : CompilerOptions} {base : Option Path}
    (hread : readConfig tree config = .ok fields) (hbase : extended? tree config fields = .ok base)
    (hown : ownOptions config fields = .ok own) : ¬ IsFaulty tree config := by
  have hobject := objectOf?_of_read hread
  rintro (⟨hread'⟩ | ⟨hread', hoptions, hfolder, hunsound⟩ | ⟨hread', hnamed, hlost⟩)
  · cases hobject.symm.trans hread'
  · cases hobject.symm.trans hread'
    rw [ownOptions, hoptions] at hown
    simp only [hfolder, Path.resolve?, if_neg hunsound] at hown
    cases hown
  · cases hobject.symm.trans hread'
    obtain ⟨cause, hcause⟩ := exists_extended?_eq_error hnamed hlost
    cases hbase.symm.trans hcause

/-- Whether all parts of a configuration can be had. -/
def isUsable (tree : FileTree) (config : Path) : Bool :=
  match readConfig tree config with
  | .error _ => false
  | .ok fields => (extended? tree config fields).isOk && (ownOptions config fields).isOk

/-- The faulty configurations are those that lack a part. -/
theorem isFaulty_iff : IsFaulty tree config ↔ ¬ isUsable tree config := by
  rw [isUsable]
  cases hread : readConfig tree config with
  | error cause => simpa using IsFaulty.unreadable (by rw [objectOf?_eq, hread]; rfl)
  | ok fields =>
    cases hbase : extended? tree config fields with
    | error cause =>
      simpa [hbase, Except.isOk, Except.toBool] using isFaulty_of_extended?_error hread hbase
    | ok base =>
      cases hown : ownOptions config fields with
      | error cause =>
        simpa [hbase, hown, Except.isOk, Except.toBool] using isFaulty_of_ownOptions_error hread hown
      | ok own =>
        simpa [hbase, hown, Except.isOk, Except.toBool] using not_isFaulty hread hbase hown

instance (tree : FileTree) (config : Path) : Decidable (IsFaulty tree config) :=
  decidable_of_iff _ isFaulty_iff.symm

/-- A configuration before a chain adds its own options to those that the chain comes to. -/
theorem Gathers.cons {fields : CompilerOptions} {base : Option Path}
    (hread : readConfig tree config = .ok fields) (hbase : extended? tree config fields = .ok base)
    {inherited : Except AliasConfigError CompilerOptions} (h : Gathers tree chain inherited) :
    Gathers tree (config :: chain) (do
      let inherited ← inherited
      let own ← ownOptions config fields
      return own.foldl (fun options option => Json.setField options option.1 option.2)
        inherited) := by
  cases inherited with
  | error cause =>
    obtain ⟨faulty, hmem, hfaulty⟩ := h
    exact ⟨faulty, List.mem_cons_of_mem _ hmem, hfaulty⟩
  | ok inherited =>
    obtain ⟨hsound, hlookup⟩ := h
    cases hown : ownOptions config fields with
    | error cause => exact ⟨config, List.mem_cons_self, isFaulty_of_ownOptions_error hread hown⟩
    | ok own =>
      obtain ⟨hnodup, hvalues⟩ := ownOptions_spec hread hown
      refine ⟨List.forall_mem_cons.mpr ⟨not_isFaulty hread hbase hown, hsound⟩, fun key => ?_⟩
      have hmerged := Json.lookup_foldl_setField hnodup inherited key
      rw [hvalues, hlookup] at hmerged
      refine hmerged.trans ?_
      rw [nearest, nearest, List.findSome?_cons]
      cases optionOf tree config key <;> rfl

/-- Reading options follows what is to follow, and comes to what this comes to. The configurations
that were seen are files of the tree, so that the number given bounds how many more there are. -/
theorem follows_optionsLogged (more : ℕ) (seen : List Path) (config : Path)
    (hfile : tree.isFile config) (hseen : seen.Nodup)
    (hfiles : ∀ p ∈ seen, tree.isFile p ∧ p.resolved = p)
    (hmore : tree.root.fileCount < more + seen.length) :
    let logged := optionsLogged tree more seen config
    Follows tree seen config.resolved logged.2 ∧ Gathers tree logged.2 logged.1.1 := by
  induction more generalizing seen config with
  | zero =>
    have hle := FileTree.length_le_fileCount hseen hfiles
    omega
  | succ more ih =>
    rw [optionsLogged]
    dsimp only [readLogged]
    by_cases hold : config.resolved ∈ seen
    · rw [if_pos hold]
      exact ⟨.nil hold, by simp [Gathers, nearest]⟩
    · rw [if_neg hold]
      cases hread : readConfig tree config.resolved with
      | error cause =>
        have hempty : objectOf? tree config.resolved = none := by rw [objectOf?_eq, hread]; rfl
        have hnone : baseOf? tree config.resolved = none := by rw [baseOf?, hempty]; rfl
        exact ⟨.single hold hnone, config.resolved, List.mem_singleton_self _, .unreadable hempty⟩
      | ok fields =>
        have hbaseOf := baseOf?_of_read hread
        cases hbase : extended? tree config.resolved fields with
        | error cause =>
          have hnone : baseOf? tree config.resolved = none := by rw [hbaseOf, hbase]; rfl
          simp only [hbase]
          exact ⟨.single hold hnone, config.resolved, List.mem_singleton_self _,
            isFaulty_of_extended?_error hread hbase⟩
        | ok base =>
          cases base with
          | none =>
            have hnone : baseOf? tree config.resolved = none := by rw [hbaseOf, hbase]; rfl
            have hempty : Gathers tree [] (.ok []) := ⟨by simp, fun key => rfl⟩
            simp only [hbase]
            exact ⟨.single hold hnone, hempty.cons hread hbase⟩
          | some base =>
            have hsome : baseOf? tree config.resolved = some base.resolved := by
              rw [hbaseOf, hbase]
              rfl
            have hkept : ∀ p ∈ config.resolved :: seen, tree.isFile p ∧ p.resolved = p :=
              List.forall_mem_cons.mpr
                ⟨⟨FileTree.isFile_resolved hfile, config.resolved_resolved⟩, hfiles⟩
            obtain ⟨hfollows, hgathers⟩ := ih (config.resolved :: seen) base
              (isFile_of_extended? hbase) (List.nodup_cons.mpr ⟨hold, hseen⟩) hkept
              (by rw [List.length_cons]; omega)
            simp only [hbase]
            exact ⟨.cons hold hsome hfollows, hgathers.cons hread hbase⟩

end Gathering

end AliasTable

end ImportAtlas
