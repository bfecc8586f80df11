import ImportAtlas.Resolver

/-!
# What remembering does not change

A resolver looks at a path once and keeps the answer. While the tree stays as it is, what it keeps
is what it would find again: resolving is a function of the root, the aliases and the answers that
the resolver would give at first, and every resolver that came out of another gives the same
answers.
-/

namespace ImportAtlas.Resolver

/-- Whether a resolver takes a path for a file when it is asked for the path now. -/
def sees (r : Resolver) (tree : FileTree) (path : String) : Bool := (r.probe tree path).1

/-- A path is seen as it is remembered, or else as it is. -/
theorem sees_eq_getD (r : Resolver) (tree : FileTree) (path : String) :
    r.sees tree path = (r.known.lookup path).getD (tree.isFile (Path.ofString path)) := by
  rw [sees, probe]
  cases r.known.lookup path <;> rfl

/-- The second resolver differs from the first at most in what it remembers of the tree. -/
structure Agrees (tree : FileTree) (r later : Resolver) : Prop where
  root_eq : later.root = r.root
  table_eq : later.table = r.table
  sees_eq : later.sees tree = r.sees tree

variable {tree : FileTree} {r later : Resolver}

/-- A resolver agrees with itself. -/
theorem Agrees.refl (tree : FileTree) (r : Resolver) : r.Agrees tree r := ⟨rfl, rfl, rfl⟩

/-- Agreement passes along a sequence of resolvers. -/
theorem Agrees.trans {last : Resolver} (h : r.Agrees tree later) (h' : later.Agrees tree last) :
    r.Agrees tree last :=
  ⟨h'.root_eq.trans h.root_eq, h'.table_eq.trans h.table_eq, h'.sees_eq.trans h.sees_eq⟩

/-- Looking at a path changes no answer. -/
theorem agrees_probe (tree : FileTree) (r : Resolver) (path : String) :
    r.Agrees tree (r.probe tree path).2 := by
  cases hknown : r.known.lookup path with
  | some answer =>
    have heq : (r.probe tree path).2 = r := by simp [probe, hknown]
    rw [heq]
    exact .refl tree r
  | none =>
    refine ⟨by simp [probe, hknown], by simp [probe, hknown], ?_⟩
    funext other
    have hkept : (r.probe tree path).2.known =
        (path, tree.isFile (Path.ofString path)) :: r.known := by simp [probe, hknown]
    rw [sees_eq_getD, sees_eq_getD, hkept, List.lookup_cons]
    by_cases hother : other = path
    · subst hother
      rw [beq_self_eq_true, hknown]
      rfl
    · rw [beq_false_of_ne hother]

/-- The first file of several paths is the first that the resolver sees. -/
theorem firstFile_fst (r : Resolver) (tree : FileTree) (paths : List String) :
    (r.firstFile tree paths).1 = paths.find? (r.sees tree) := by
  induction paths generalizing r with
  | nil => rfl
  | cons path rest ih =>
    have hagrees := agrees_probe tree r path
    rw [firstFile, List.find?_cons, sees]
    cases hprobe : r.probe tree path with
    | mk answer later =>
      rw [hprobe] at hagrees
      cases answer with
      | true => rfl
      | false => exact (ih later).trans (by rw [hagrees.sees_eq])

/-- Looking for the first file changes no answer. -/
theorem agrees_firstFile (tree : FileTree) (r : Resolver) (paths : List String) :
    r.Agrees tree (r.firstFile tree paths).2 := by
  induction paths generalizing r with
  | nil => exact .refl tree r
  | cons path rest ih =>
    have hagrees := agrees_probe tree r path
    rw [firstFile]
    cases hprobe : r.probe tree path with
    | mk answer later =>
      rw [hprobe] at hagrees
      cases answer with
      | true => exact hagrees
      | false => exact hagrees.trans (ih later)

/-- The first file among the candidates of several paths, by what the resolver sees. -/
theorem firstCandidate_fst (r : Resolver) (tree : FileTree) (bases : List Path) :
    (r.firstCandidate tree bases).1 =
      bases.findSome? fun base => (candidatePaths base.toString).find? (r.sees tree) := by
  induction bases generalizing r with
  | nil => rfl
  | cons base rest ih =>
    have hagrees := agrees_firstFile tree r (candidatePaths base.toString)
    rw [firstCandidate, List.findSome?_cons, ← firstFile_fst]
    cases hfirst : r.firstFile tree (candidatePaths base.toString) with
    | mk found later =>
      rw [hfirst] at hagrees
      cases found with
      | some path => rfl
      | none => exact (ih later).trans (by rw [hagrees.sees_eq])

/-- Looking for the first candidate changes no answer. -/
theorem agrees_firstCandidate (tree : FileTree) (r : Resolver) (bases : List Path) :
    r.Agrees tree (r.firstCandidate tree bases).2 := by
  induction bases generalizing r with
  | nil => exact .refl tree r
  | cons base rest ih =>
    have hagrees := agrees_firstFile tree r (candidatePaths base.toString)
    rw [firstCandidate]
    cases hfirst : r.firstFile tree (candidatePaths base.toString) with
    | mk found later =>
      rw [hfirst] at hagrees
      cases found with
      | some path => exact hagrees
      | none => exact hagrees.trans (ih later)

/-- Files have the same names for resolvers with the same root. -/
theorem Agrees.key_eq (h : r.Agrees tree later) (path : Path) : later.key path = r.key path := by
  rw [key, key, h.root_eq]

/-- The bare path that a relative specifier of a file names. -/
def relativeTarget (r : Resolver) (specifier : String) (importer : Path) : Path :=
  ((r.root.join importer).parent.join (Path.ofString specifier)).normal

/-- What a specifier leads to, said without remembering. -/
theorem resolve_fst (r : Resolver) (tree : FileTree) (specifier : String) (importer : Path) :
    (r.resolve tree specifier importer).1 =
      if specifier.isEmpty then none
      else if isRelativeSpecifier specifier.toList then
        let base := r.relativeTarget specifier importer
        some (((candidatePaths base.toString).find? (r.sees tree)).elim (r.key base)
          fun path => r.key (Path.ofString path))
      else
        ((r.aliasTargets specifier).findSome? fun base =>
          (candidatePaths base.toString).find? (r.sees tree)).map
            fun path => r.key (Path.ofString path) := by
  rw [resolve]
  split
  · rfl
  · split
    · have hfst := r.firstCandidate_fst tree [r.relativeTarget specifier importer]
      have hagrees := agrees_firstCandidate tree r [r.relativeTarget specifier importer]
      simp only [List.findSome?_cons, List.findSome?_nil, relativeTarget] at hfst hagrees ⊢
      cases hcandidate : r.firstCandidate tree
        [((r.root.join importer).parent.join (Path.ofString specifier)).normal] with
      | mk found later =>
        rw [hcandidate] at hfst hagrees
        cases hfind : (candidatePaths (((r.root.join importer).parent.join
          (Path.ofString specifier)).normal).toString).find? (r.sees tree) <;>
          simp_all [hagrees.key_eq]
    · have hfst := r.firstCandidate_fst tree (r.aliasTargets specifier)
      have hagrees := agrees_firstCandidate tree r (r.aliasTargets specifier)
      cases hcandidate : r.firstCandidate tree (r.aliasTargets specifier) with
      | mk found later =>
        rw [hcandidate] at hfst hagrees
        rw [← hfst]
        cases found with
        | some path => simp [hagrees.key_eq]
        | none => rfl

/-- Resolving changes no answer. -/
theorem agrees_resolve (tree : FileTree) (r : Resolver) (specifier : String) (importer : Path) :
    r.Agrees tree (r.resolve tree specifier importer).2 := by
  rw [resolve]
  split
  · exact .refl tree r
  · split
    · have hagrees := agrees_firstCandidate tree r
        [((r.root.join importer).parent.join (Path.ofString specifier)).normal]
      dsimp only
      cases hcandidate : r.firstCandidate tree
        [((r.root.join importer).parent.join (Path.ofString specifier)).normal] with
      | mk found later => rw [hcandidate] at hagrees; cases found <;> exact hagrees
    · have hagrees := agrees_firstCandidate tree r (r.aliasTargets specifier)
      cases hcandidate : r.firstCandidate tree (r.aliasTargets specifier) with
      | mk found later => rw [hcandidate] at hagrees; cases found <;> exact hagrees

/-- Resolvers that agree resolve alike. -/
theorem Agrees.resolve_eq (h : r.Agrees tree later) (specifier : String) (importer : Path) :
    (later.resolve tree specifier importer).1 = (r.resolve tree specifier importer).1 := by
  have hkey : later.key = r.key := funext h.key_eq
  have htarget : later.relativeTarget specifier importer = r.relativeTarget specifier importer := by
    rw [relativeTarget, relativeTarget, h.root_eq]
  have haliases : later.aliasTargets specifier = r.aliasTargets specifier := by
    simp only [aliasTargets, templateFolder, h.root_eq, h.table_eq]
  rw [resolve_fst, resolve_fst, hkey, htarget, haliases, h.sees_eq]

end ImportAtlas.Resolver
