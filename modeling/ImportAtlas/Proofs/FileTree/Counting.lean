import Mathlib.Data.List.Nodup
import Mathlib.Data.List.Perm.Subperm
import ImportAtlas.Proofs.FileTree.Places

/-!
# How many files there are

Normal paths that lead to files are told apart by their names, and every file is found among the
places of the tree. Distinct normal paths therefore lead to at most as many files as the tree has.
-/

namespace ImportAtlas

namespace Entry

mutual

/-- The names that lead to the files at or below an entry. -/
def places : Entry → List (List String)
  | .file _ => [[]]
  | .folder entries => placesIn entries
termination_by structural e => e

/-- The names that lead to the files at or below a named entry. -/
def placesAt : String × Entry → List (List String)
  | (name, e) => (places e).map (name :: ·)
termination_by structural named => named

/-- The names that lead to the files among entries and below them. -/
def placesIn : List (String × Entry) → List (List String)
  | [] => []
  | named :: rest => placesAt named ++ placesIn rest
termination_by structural entries => entries

end

mutual

/-- There are as many places as files at or below an entry. -/
theorem length_places : ∀ e : Entry, e.places.length = e.fileCount
  | .file _ => rfl
  | .folder entries => by
    rw [places, fileCount]
    exact length_placesIn entries
termination_by structural e => e

/-- There are as many places as files at or below a named entry. -/
theorem length_placesAt : ∀ named : String × Entry, (placesAt named).length = fileCountAt named
  | (_, e) => by
    rw [placesAt, fileCountAt, List.length_map]
    exact length_places e
termination_by structural named => named

/-- There are as many places as files among entries and below them. -/
theorem length_placesIn : ∀ entries : List (String × Entry),
    (placesIn entries).length = fileCountIn entries
  | [] => rfl
  | named :: rest => by
    rw [placesIn, fileCountIn, List.length_append]
    exact congrArg₂ _ (length_placesAt named) (length_placesIn rest)
termination_by structural entries => entries

end

/-- The places below an entry of a folder are places of the folder. -/
theorem mem_placesIn {entries : List (String × Entry)} {name : String} {e : Entry}
    (h : entries.lookup name = some e) {names : List String} (hnames : names ∈ e.places) :
    name :: names ∈ placesIn entries := by
  induction entries with
  | nil => simp at h
  | cons named entries ih =>
    obtain ⟨own, child⟩ := named
    rw [List.lookup_cons] at h
    rw [placesIn, List.mem_append]
    split at h
    · next heq =>
      cases h
      left
      rw [placesAt, beq_iff_eq.mp heq]
      exact List.mem_map_of_mem hnames
    · exact .inr (ih h)

/-- Names that lead to a file are one of the places. -/
theorem mem_places {e found : Entry} {names : List String} (h : e.find? names = some found)
    (hfile : ¬ found.isFolder) : names ∈ e.places := by
  induction names generalizing e with
  | nil =>
    rw [find?, Option.some.injEq] at h
    subst h
    cases e with
    | file content => simp [places]
    | folder entries => exact absurd rfl hfile
  | cons name names ih =>
    rw [find?] at h
    obtain ⟨child, hchild, hrest⟩ := Option.bind_eq_some_iff.mp h
    cases e with
    | file content => simp [child?] at hchild
    | folder entries =>
      rw [places]
      exact mem_placesIn hchild (ih hrest)

end Entry

namespace FileTree

variable {tree : FileTree}

/-- The names of the normal form of a file are one of the places. -/
theorem names_mem_places {p : Path} (h : tree.isFile p.resolved) :
    p.resolved.names ∈ tree.root.places := by
  have habsolute : p.resolved.isAbsolute := rfl
  rw [isFile, find?, if_pos habsolute] at h
  cases hfollow : tree.follow [] p.resolved.names with
  | none => simp [hfollow] at h
  | some reached =>
    rw [hfollow, Option.bind_some, eq_of_follow_resolved hfollow] at h
    cases hfound : tree.root.find? p.resolved.names with
    | none => simp [hfound] at h
    | some found => exact Entry.mem_places hfound (by simpa [hfound] using h)

/-- Distinct normal paths lead to at most as many files as there are. -/
theorem length_le_fileCount {paths : List Path} (hnodup : paths.Nodup)
    (hfiles : ∀ p ∈ paths, tree.isFile p ∧ p.resolved = p) :
    paths.length ≤ tree.root.fileCount := by
  have hinj : (paths.map Path.names).Nodup := by
    refine hnodup.map_on fun p hp q hq hnames => ?_
    rw [← (hfiles p hp).2, ← (hfiles q hq).2, Path.resolved, Path.resolved, hnames]
  have hsubset : paths.map Path.names ⊆ tree.root.places := by
    intro names hnames
    obtain ⟨p, hp, rfl⟩ := List.mem_map.mp hnames
    obtain ⟨hfile, hnormal⟩ := hfiles p hp
    exact hnormal ▸ names_mem_places (hnormal.symm ▸ hfile)
  calc paths.length
    _ = (paths.map Path.names).length := (List.length_map ..).symm
    _ ≤ tree.root.places.length := (hinj.subperm hsubset).length_le
    _ = tree.root.fileCount := Entry.length_places _

end FileTree

end ImportAtlas
