import ImportAtlas.Proofs.FileTree.Places

/-!
# Keys name files once

The key of a path is written relative to the root. It is a path itself, and it is its own key: from
the root it leads where the path leads. Two paths have the same key exactly if they lead through the
same names when they are made normal, and paths that lead to the same file have the same key.
-/

namespace ImportAtlas

namespace Path

/-- Double dots after names take away as many of them. -/
theorem foldl_normalStep_up {names : List String} (h : ".." ∉ names) (up : ℕ) :
    (List.replicate up "..").foldl (normalStep true) names = names.take (names.length - up) := by
  induction up generalizing names with
  | zero => simp
  | succ up ih =>
    have hstep : normalStep true names ".." = names.dropLast := by
      rw [normalStep, if_neg (by decide)]
      cases hlast : names.getLast? with
      | none => rw [List.getLast?_eq_none_iff.mp hlast]; rfl
      | some last =>
        have hne : last ≠ ".." := fun heq => h (heq ▸ List.mem_of_getLast? hlast)
        simp only [hne, if_false]
    have hkept : ".." ∉ names.dropLast := fun hmem => h ((List.dropLast_sublist names).subset hmem)
    rw [List.replicate_succ, List.foldl_cons, hstep, ih hkept, List.dropLast_eq_take, List.take_take,
      List.length_take]
    congr 1
    omega

/-- The way from a folder leads back to where it was made for. -/
theorem foldl_normalStep_wayFrom {folder p : Path} (hfolder : ".." ∉ folder.names)
    (hp : ".." ∉ p.names) :
    (folder.names ++ (folder.wayFrom p).names).foldl (normalStep true) [] = p.names := by
  let common := commonLength folder.names p.names
  have hle : common ≤ folder.names.length := commonLength_le ..
  have hdown : ".." ∉ p.names.drop common := fun hmem => hp (List.mem_of_mem_drop hmem)
  calc (folder.names ++ (folder.wayFrom p).names).foldl (normalStep true) []
    _ = (List.replicate (folder.names.length - common) ".." ++ p.names.drop common).foldl
          (normalStep true) folder.names := by
      rw [List.foldl_append, foldl_normalStep true hfolder, List.nil_append]
      rfl
    _ = folder.names.take common ++ p.names.drop common := by
      rw [List.foldl_append, foldl_normalStep_up hfolder, foldl_normalStep true hdown,
        Nat.sub_sub_self hle]
    _ = p.names := by rw [← take_commonLength, List.take_append_drop]

end Path

namespace Resolver

variable {root p q : Path}

/-- The names that a path leads through from the root on. -/
def namesIn (root p : Path) : List String := (root.join p).normal.names

/-- In an absolute root every path is absolute. -/
theorem isAbsolute_join (hroot : root.isAbsolute) (p : Path) : (root.join p).isAbsolute := by
  rw [Path.join]
  split
  · assumption
  · exact hroot

/-- From an absolute root on, names are counted from the start. -/
theorem namesIn_eq (hroot : root.isAbsolute) (p : Path) :
    namesIn root p = (root.join p).names.foldl (Path.normalStep true) [] := by
  rw [namesIn, Path.normal, isAbsolute_join hroot p]

/-- A path made of steps leads through names alone. -/
theorem isName_of_mem_namesIn (hroot : root.IsPlace) (hp : ∀ name ∈ p.names, Path.IsStep name) :
    ∀ name ∈ namesIn root p, Path.IsName name := by
  rw [namesIn_eq hroot.isAbsolute]
  exact Path.isName_of_mem_foldl_normalStep
    (Path.isStep_join (fun name hname => (hroot.names_isName name hname).1) hp) (by simp)

/-- Paths have the same key exactly if they lead through the same names. -/
theorem keyIn_eq_iff (hroot : root.IsPlace) (hp : ∀ name ∈ p.names, Path.IsStep name)
    (hq : ∀ name ∈ q.names, Path.IsStep name) :
    keyIn root p = keyIn root q ↔ namesIn root p = namesIn root q := by
  constructor
  · exact Path.names_eq_of_toString_wayFrom_eq (isName_of_mem_namesIn hroot hp)
      (isName_of_mem_namesIn hroot hq)
  · intro h
    rw [namesIn, namesIn] at h
    rw [keyIn, keyIn, Path.wayFrom, Path.wayFrom, h]

/-- A key is read as the way from the root. -/
theorem ofString_keyIn (hroot : root.IsPlace) (hp : ∀ name ∈ p.names, Path.IsStep name) :
    Path.ofString (keyIn root p) = root.wayFrom (root.join p).normal :=
  Path.ofString_toString (Path.isStep_of_mem_wayFrom root (isName_of_mem_namesIn hroot hp))

/-- A key leads where its path leads. -/
theorem namesIn_keyIn (hroot : root.IsPlace) (hp : ∀ name ∈ p.names, Path.IsStep name) :
    namesIn root (Path.ofString (keyIn root p)) = namesIn root p := by
  have hdotdot : ".." ∉ namesIn root p := fun hmem =>
    (isName_of_mem_namesIn hroot hp ".." hmem).2 rfl
  rw [ofString_keyIn hroot hp, namesIn_eq hroot.isAbsolute]
  exact Path.foldl_normalStep_wayFrom hroot.dotdot_notMem hdotdot

/-- A text that is the key of the path that it gives. -/
def IsKey (root : Path) (text : String) : Prop := keyIn root (Path.ofString text) = text

/-- Whatever is written relative to the root is a key. -/
theorem isKey_keyIn (hroot : root.IsPlace) (hp : ∀ name ∈ p.names, Path.IsStep name) :
    IsKey root (keyIn root p) :=
  (keyIn_eq_iff hroot (fun _ => Path.isStep_of_mem_ofString) hp).mpr (namesIn_keyIn hroot hp)

/-- A path that leads anywhere in a tree leads through the names of this place. -/
theorem namesIn_of_follow (hroot : root.isAbsolute) {tree : FileTree} {place : List String}
    (h : tree.follow [] (root.join p).names = some place) : namesIn root p = place := by
  rw [namesIn_eq hroot]
  exact (FileTree.follow_eq_foldl List.not_mem_nil h).1.symm

/-- Paths that lead to the same place have the same key. -/
theorem keyIn_eq_of_follow (hroot : root.isAbsolute) {tree : FileTree} {place : List String}
    (hp : tree.follow [] (root.join p).names = some place)
    (hq : tree.follow [] (root.join q).names = some place) : keyIn root p = keyIn root q := by
  have hnames : namesIn root p = namesIn root q :=
    (namesIn_of_follow hroot hp).trans (namesIn_of_follow hroot hq).symm
  rw [namesIn, namesIn] at hnames
  rw [keyIn, keyIn, Path.wayFrom, Path.wayFrom, hnames]

end Resolver

end ImportAtlas
