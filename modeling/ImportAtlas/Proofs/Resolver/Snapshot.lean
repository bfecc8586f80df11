import Mathlib.Data.List.Basic
import ImportAtlas.Proofs.Resolver.Memory

/-!
# Resolving while files come and go

A resolver is asked for one specifier after the other while files are written and removed. It takes
a path for what it was when the resolver first looked at it. What it answers is therefore what would
be answered without remembering anything, if all paths had kept their first status all the time.
-/

namespace ImportAtlas

namespace Resolver

/-- A specifier to be resolved for a file, and the files that are there at this time. -/
structure Call where
  tree : FileTree
  specifier : String
  importer : Path

/-- The answers to calls one after the other. -/
def resolveAll (r : Resolver) : List Call → List (Option String) × Resolver
  | [] => ([], r)
  | call :: rest =>
    let (answer, r) := r.resolve call.tree call.specifier call.importer
    let (answers, r) := r.resolveAll rest
    (answer :: answers, r)

/-- Whether the specifier of a call is relative. -/
def Call.isRelative (call : Call) : Bool :=
  ["./", "../"].any fun beginning => beginning.toList.isPrefixOf call.specifier.toList

/-- A template with a text in the place of its first star. It is cut there; one without a star stays
as it is. -/
def filledTemplate (text template : List Char) : List Char :=
  match template.dropWhile (· != '*') with
  | [] => template
  | _ :: behind => template.takeWhile (· != '*') ++ text ++ behind

section Specification

variable (r : Resolver) (isFile : String → Bool)

/-- The files that aliases may mean by a specifier: by the aliases that match it as they are
declared, for each of them by its templates, and for each of these by the candidates of its path,
which counts from the folder of the aliases or else from the root. -/
def aliasCandidates (specifier : String) : List String :=
  let folder := (r.table.bind AliasTable.baseFolder).getD r.root
  ((r.table.map AliasTable.paths).getD []).flatMap fun (pattern, templates) =>
    (aliasMatch? pattern.toList specifier.toList).toList.flatMap fun captured =>
      templates.flatMap fun template =>
        let path := filledTemplate (captured.head?.getD []) template.toList
        candidatePaths (folder.join (Path.ofString (String.ofList path))).normal.toString

/-- The files that the specifier of a call may mean, the first choice first. -/
def candidates (call : Call) : List String :=
  if call.specifier.isEmpty then []
  else if call.isRelative then
    candidatePaths (r.relativeTarget call.specifier call.importer).toString
  else r.aliasCandidates call.specifier

/-- The answer to a call if `isFile` says which paths are files, relative to the root. -/
def answerBy (call : Call) : Option String :=
  let fromRoot (path : Path) : String := (r.root.wayFrom (r.root.join path).normal).toString
  let found := ((r.candidates call).find? isFile).map fun path => fromRoot (Path.ofString path)
  if call.isRelative then
    some (found.getD (fromRoot (r.relativeTarget call.specifier call.importer)))
  else found

/-- The paths that a search for the first file looks at. -/
def lookedAt : List String → List String
  | [] => []
  | path :: rest => path :: if isFile path then [] else lookedAt rest

/-- The paths that a call looks at if `isFile` says which paths are files. -/
def looksAt (call : Call) : List String := lookedAt isFile (r.candidates call)

end Specification

section Looking

variable {isFile isFile' : String → Bool} {paths : List String}

/-- A search sees of a status only what it looks at. -/
theorem lookedAt_congr (h : ∀ path ∈ lookedAt isFile paths, isFile' path = isFile path) :
    lookedAt isFile' paths = lookedAt isFile paths ∧ paths.find? isFile' = paths.find? isFile := by
  induction paths with
  | nil => exact ⟨rfl, rfl⟩
  | cons path rest ih =>
    have hpath := h path List.mem_cons_self
    rw [lookedAt, lookedAt, List.find?_cons, List.find?_cons, hpath]
    cases hfile : isFile path with
    | true => exact ⟨rfl, rfl⟩
    | false =>
      obtain ⟨hlooked, hfound⟩ := ih fun path' hpath' =>
        h path' (by rw [lookedAt, hfile]; exact List.mem_cons_of_mem _ hpath')
      exact ⟨congrArg _ hlooked, hfound⟩

end Looking

variable {tree : FileTree} {r later : Resolver}

/-- A path that was looked at is remembered as it was seen; nothing else is learnt. -/
theorem lookup_probe (r : Resolver) (tree : FileTree) (path other : String) :
    (r.probe tree path).2.known.lookup other =
      if other = path then some (r.sees tree other) else r.known.lookup other := by
  cases hknown : r.known.lookup path with
  | some answer =>
    have hsame : (r.probe tree path).2 = r := by simp [probe, hknown]
    rw [hsame]
    split
    · next heq => rw [heq, sees_eq_getD, hknown, Option.getD_some]
    · rfl
  | none =>
    have hkept : (r.probe tree path).2.known =
        (path, tree.isFile (Path.ofString path)) :: r.known := by simp [probe, hknown]
    rw [hkept, List.lookup_cons]
    by_cases heq : other = path
    · rw [heq, beq_self_eq_true, if_pos rfl, sees_eq_getD, hknown, Option.getD_none]
    · rw [beq_false_of_ne heq, if_neg heq]

/-- A search for the first file learns the status of the paths that it looks at. -/
theorem lookup_firstFile (r : Resolver) (tree : FileTree) (paths : List String) (path : String) :
    (r.firstFile tree paths).2.known.lookup path =
      if path ∈ lookedAt (r.sees tree) paths then some (r.sees tree path)
      else r.known.lookup path := by
  induction paths generalizing r with
  | nil => rfl
  | cons first rest ih =>
    have hprobe := lookup_probe r tree first path
    have hagrees := agrees_probe tree r first
    rw [firstFile, lookedAt, sees]
    cases hstep : r.probe tree first with
    | mk answer later =>
      rw [hstep] at hprobe hagrees
      cases answer with
      | true => simpa using hprobe
      | false =>
        change (later.firstFile tree rest).2.known.lookup path = _
        rw [ih later, hagrees.sees_eq, hprobe]
        by_cases hrest : path ∈ lookedAt (r.sees tree) rest <;> simp [hrest]

/-- A search through several lists of paths is one through all of them. -/
theorem firstFile_append (r : Resolver) (tree : FileTree) (left right : List String) :
    r.firstFile tree (left ++ right) =
      match r.firstFile tree left with
      | (some path, r) => (some path, r)
      | (none, r) => r.firstFile tree right := by
  induction left generalizing r with
  | nil => rfl
  | cons path left ih =>
    rw [List.cons_append, firstFile, firstFile]
    cases r.probe tree path with
    | mk answer later =>
      cases answer with
      | true => rfl
      | false => exact ih later

/-- A search for the first candidate of several paths is one through the candidates of all. -/
theorem firstCandidate_eq (r : Resolver) (tree : FileTree) (bases : List Path) :
    r.firstCandidate tree bases =
      r.firstFile tree (bases.flatMap fun base => candidatePaths base.toString) := by
  induction bases generalizing r with
  | nil => rfl
  | cons base bases ih =>
    rw [firstCandidate, List.flatMap_cons, firstFile_append]
    cases r.firstFile tree (candidatePaths base.toString) with
    | mk found later =>
      cases found with
      | some path => rfl
      | none => exact ih later

/-- A template is filled at its first star. -/
theorem substituteStar_eq (text template : List Char) :
    substituteStar text template = filledTemplate text template := by
  induction template with
  | nil => rfl
  | cons c rest ih =>
    rw [substituteStar, filledTemplate, List.dropWhile_cons, List.takeWhile_cons]
    by_cases hstar : c = '*'
    · simp [hstar]
    · have hbefore : (c != '*') = true := by simpa using hstar
      rw [if_neg hstar, if_pos hbefore, if_pos hbefore, ih, filledTemplate]
      cases rest.dropWhile (· != '*') <;> rfl

/-- The candidates of the targets of aliases, alias by alias and template by template. -/
theorem aliasCandidates_eq (r : Resolver) (specifier : String) :
    r.aliasCandidates specifier =
      (r.aliasTargets specifier).flatMap fun base => candidatePaths base.toString := by
  rw [aliasCandidates, aliasTargets, List.flatMap_assoc]
  refine List.flatMap_congr fun entry _ => ?_
  obtain ⟨pattern, templates⟩ := entry
  dsimp only
  cases aliasMatch? pattern.toList specifier.toList with
  | none => rfl
  | some captured => simp [List.flatMap_map, substituteStar_eq, templateFolder]

/-- A relative specifier begins with a dot or two, and a slash. -/
theorem isRelativeSpecifier_eq (call : Call) :
    isRelativeSpecifier call.specifier.toList = call.isRelative := by
  simp [isRelativeSpecifier, Call.isRelative]

/-- No relative specifier is empty. -/
theorem isEmpty_of_isRelative {call : Call} (h : call.isRelative) :
    call.specifier.isEmpty = false := by
  by_contra hempty
  rw [Bool.not_eq_false, String.isEmpty_iff] at hempty
  rw [Call.isRelative, hempty] at h
  exact absurd h (by decide)

/-- A call is answered by what the resolver sees. -/
theorem resolve_fst_eq (r : Resolver) (call : Call) :
    (r.resolve call.tree call.specifier call.importer).1 = r.answerBy (r.sees call.tree) call := by
  rw [resolve_fst, answerBy, candidates, isRelativeSpecifier_eq]
  by_cases hrelative : call.isRelative
  · have hempty := isEmpty_of_isRelative hrelative
    simp only [hempty, hrelative, if_true, Bool.false_eq_true, if_false]
    cases (candidatePaths (r.relativeTarget call.specifier call.importer).toString).find?
      (r.sees call.tree) <;> rfl
  · simp only [hrelative, Bool.false_eq_true, if_false]
    split
    · rfl
    · rw [aliasCandidates_eq, List.find?_flatMap]
      rfl

/-- A call makes the resolver look for the first file among its candidates. -/
theorem resolve_snd_eq (r : Resolver) (call : Call) :
    (r.resolve call.tree call.specifier call.importer).2 =
      (r.firstFile call.tree (r.candidates call)).2 := by
  rw [resolve, candidates, isRelativeSpecifier_eq]
  split
  · rfl
  · split
    · have hbase := r.firstCandidate_eq call.tree [r.relativeTarget call.specifier call.importer]
      rw [List.flatMap_singleton] at hbase
      rw [← hbase, relativeTarget]
      dsimp only
      cases r.firstCandidate call.tree
        [((r.root.join call.importer).parent.join (Path.ofString call.specifier)).normal] with
      | mk found later => cases found <;> rfl
    · rw [aliasCandidates_eq, ← firstCandidate_eq]
      cases r.firstCandidate call.tree (r.aliasTargets call.specifier) with
      | mk found later => cases found <;> rfl

/-- The second resolver comes from the first and knows what the first knows. -/
structure Remembers (r later : Resolver) : Prop where
  root_eq : later.root = r.root
  table_eq : later.table = r.table
  lookup_eq : ∀ path answer, r.known.lookup path = some answer →
    later.known.lookup path = some answer

/-- What a specifier may mean does not depend on what is known. -/
theorem Remembers.candidates_eq (h : r.Remembers later) : later.candidates = r.candidates := by
  funext call
  simp only [candidates, aliasCandidates, relativeTarget, h.root_eq, h.table_eq]

/-- What is looked at for a specifier depends on the status of paths alone. -/
theorem Remembers.looksAt_eq (h : r.Remembers later) : later.looksAt = r.looksAt := by
  funext isFile call
  rw [looksAt, looksAt, h.candidates_eq]

/-- What a specifier leads to depends on the status of paths alone. -/
theorem Remembers.answerBy_eq (h : r.Remembers later) : later.answerBy = r.answerBy := by
  funext isFile call
  simp only [answerBy, relativeTarget, h.candidates_eq, h.root_eq]

/-- A call learns the status of what it looks at. -/
theorem lookup_resolve (r : Resolver) (call : Call) (path : String) :
    (r.resolve call.tree call.specifier call.importer).2.known.lookup path =
      if path ∈ r.looksAt (r.sees call.tree) call then some (r.sees call.tree path)
      else r.known.lookup path := by
  rw [resolve_snd_eq, lookup_firstFile]
  rfl

/-- A call forgets nothing. -/
theorem remembers_resolve (r : Resolver) (call : Call) :
    r.Remembers (r.resolve call.tree call.specifier call.importer).2 where
  root_eq := (agrees_resolve ..).root_eq
  table_eq := (agrees_resolve ..).table_eq
  lookup_eq := by
    intro path answer hknown
    rw [lookup_resolve, sees_eq_getD, hknown, Option.getD_some, ite_self]

/-- Calls one after the other forget nothing. -/
theorem remembers_resolveAll (r : Resolver) (calls : List Call) :
    ∀ path answer, r.known.lookup path = some answer →
      (r.resolveAll calls).2.known.lookup path = some answer := by
  induction calls generalizing r with
  | nil => exact fun _ _ hknown => hknown
  | cons call rest ih =>
    exact fun path answer hknown => ih _ path answer ((r.remembers_resolve call).lookup_eq _ _ hknown)

/-- Calls are answered by any status of paths that agrees with what the resolver knows at last. It
knows what it looked at, and a path that it had not known is what it was when it was first looked
at. -/
theorem resolveAll_of_status {isFile : String → Bool} {calls : List Call}
    (h : ∀ path answer, (r.resolveAll calls).2.known.lookup path = some answer →
      isFile path = answer) :
    (r.resolveAll calls).1 = calls.map (r.answerBy isFile) ∧
    (∀ path, (r.resolveAll calls).2.known.lookup path =
      if path ∈ calls.flatMap (r.looksAt isFile) then some (isFile path)
      else r.known.lookup path) ∧
    ∀ before call after, calls = before ++ call :: after →
      ∀ path ∈ r.looksAt isFile call, r.known.lookup path = none →
        (∀ earlier ∈ before, path ∉ r.looksAt isFile earlier) →
          isFile path = call.tree.isFile (Path.ofString path) := by
  induction calls generalizing r with
  | nil => exact ⟨rfl, fun path => rfl, by simp⟩
  | cons call rest ih =>
    obtain ⟨next, hnext⟩ : ∃ next, (r.resolve call.tree call.specifier call.importer).2 = next :=
      ⟨_, rfl⟩
    have hremembers := r.remembers_resolve call
    have hlookup := r.lookup_resolve call
    have hanswers : r.resolveAll (call :: rest) =
        (r.answerBy (r.sees call.tree) call :: (next.resolveAll rest).1,
          (next.resolveAll rest).2) := by
      rw [resolveAll, ← resolve_fst_eq, ← hnext]
    rw [hnext] at hremembers hlookup
    rw [hanswers] at h ⊢
    obtain ⟨hrest, hknown, hfirst⟩ := ih h
    rw [hremembers.answerBy_eq] at hrest
    simp only [hremembers.looksAt_eq] at hknown hfirst
    -- What the call looks at is known from then on, so it is seen then as it is by `isFile`.
    have hseen : ∀ path ∈ r.looksAt (r.sees call.tree) call,
        isFile path = r.sees call.tree path := fun path hpath =>
      h path _ (next.remembers_resolveAll rest path _ (by rw [hlookup, if_pos hpath]))
    obtain ⟨hlooks, hfound⟩ := lookedAt_congr hseen
    have hlooks' : r.looksAt isFile call = r.looksAt (r.sees call.tree) call := hlooks
    refine ⟨?_, fun path => ?_, ?_⟩
    · rw [List.map_cons, ← hrest, answerBy, answerBy, hfound]
    · simp only [hknown, hlookup, List.flatMap_cons, List.mem_append, hlooks']
      by_cases hpath : path ∈ r.looksAt (r.sees call.tree) call
      · simp [hpath, hseen path hpath]
      · simp [hpath]
    · rintro before call' after hsplit path hpath hnew hbefore
      cases before with
      | nil =>
        obtain ⟨rfl, rfl⟩ := List.cons.inj hsplit
        rw [hseen path (hlooks' ▸ hpath), sees_eq_getD, hnew, Option.getD_none]
      | cons earlier before =>
        obtain ⟨rfl, rfl⟩ := List.cons.inj hsplit
        have hunseen := hlooks' ▸ hbefore call List.mem_cons_self
        refine hfirst before call' after rfl path hpath ?_ fun earlier hearlier =>
          hbefore earlier (List.mem_cons_of_mem _ hearlier)
        rw [hlookup, if_neg hunseen, hnew]

/-- While no file changes, calls are answered by what the resolver sees at first. -/
theorem resolveAll_of_unchanged {calls : List Call} (h : ∀ call ∈ calls, call.tree = tree) :
    (r.resolveAll calls).1 = calls.map (r.answerBy (r.sees tree)) := by
  induction calls generalizing r with
  | nil => rfl
  | cons call rest ih =>
    obtain ⟨hcall, hrest⟩ := List.forall_mem_cons.mp h
    have hagrees := agrees_resolve call.tree r call.specifier call.importer
    rw [hcall] at hagrees
    rw [resolveAll, List.map_cons, ← hcall, ← resolve_fst_eq, hcall]
    change _ :: (Resolver.resolveAll _ rest).1 = _
    rw [ih hrest, ← hcall, (r.remembers_resolve call).answerBy_eq, hcall, hagrees.sees_eq]

/-- A call that finds a file is answered by the name of the file. -/
theorem answerBy_of_find? {isFile : String → Bool} {call : Call} {path : String}
    (h : (r.candidates call).find? isFile = some path) :
    r.answerBy isFile call = some (r.key (Path.ofString path)) := by
  rw [answerBy, h]
  split <;> rfl

/-- A relative specifier always has an answer. -/
theorem isSome_answerBy {call : Call} (h : call.isRelative)
    (isFile : String → Bool) : (r.answerBy isFile call).isSome := by
  rw [answerBy, if_pos h]
  rfl

/-- However files come and go between calls, a resolver answers all of them as if each path had
been all the time what it was when the resolver first looked at it, and this is what it remembers;
a relative specifier always has an answer. While no file changes, each call is answered by the files
that are there, so neither the order of calls nor their repetition matters. -/
theorem resolveAll_firstStatus (root : Path) (table : Option AliasTable) (calls : List Call) :
    let r := Resolver.new root table
    (∃ isFile : String → Bool,
      (∀ before call after, calls = before ++ call :: after → ∀ path ∈ r.looksAt isFile call,
        (∀ earlier ∈ before, path ∉ r.looksAt isFile earlier) →
          isFile path = call.tree.isFile (Path.ofString path)) ∧
      (r.resolveAll calls).1 = calls.map (r.answerBy isFile) ∧
      (∀ path, (r.resolveAll calls).2.known.lookup path =
        if path ∈ calls.flatMap (r.looksAt isFile) then some (isFile path) else none) ∧
      ∀ call ∈ calls, call.isRelative → (r.answerBy isFile call).isSome) ∧
    ∀ tree : FileTree, (∀ call ∈ calls, call.tree = tree) →
      (r.resolveAll calls).1 = calls.map (r.answerBy fun path => tree.isFile (Path.ofString path)) := by
  intro r
  have hnew (path : String) : r.known.lookup path = none := rfl
  refine ⟨?_, fun tree htree => ?_⟩
  · let isFile (path : String) : Bool := ((r.resolveAll calls).2.known.lookup path).getD false
    have hstatus : ∀ path answer, (r.resolveAll calls).2.known.lookup path = some answer →
        isFile path = answer := by
      intro path answer hknown
      simp only [isFile, hknown, Option.getD_some]
    obtain ⟨hanswers, hknown, hfirst⟩ := resolveAll_of_status hstatus
    exact ⟨isFile, fun before call after hsplit path hpath =>
      hfirst before call after hsplit path hpath (hnew path), hanswers, hknown,
        fun call _ hrelative => isSome_answerBy hrelative isFile⟩
  · have hsees : r.sees tree = fun path => tree.isFile (Path.ofString path) := by
      funext path
      rw [sees_eq_getD, hnew, Option.getD_none]
    rw [resolveAll_of_unchanged htree, hsees]

/-- A file that was found is found again after it is gone. -/
example :
    let file : Path := ⟨.root, ["p", "a.ts"]⟩
    let tree := FileTree.empty.write file []
    let importer : Path := ⟨.root, ["p", "main.ts"]⟩
    ((new ⟨.root, ["p"]⟩ none).resolveAll
      [⟨tree, "./a", importer⟩, ⟨tree.remove file, "./a", importer⟩]).1 =
        [some "a.ts", some "a.ts"] := by decide +kernel

end Resolver

end ImportAtlas
