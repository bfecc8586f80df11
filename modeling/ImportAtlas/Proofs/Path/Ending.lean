import ImportAtlas.FileTree.Basic
import ImportAtlas.Proofs.Path.Naming

/-!
# Endings of names

A name bears an ending if its last dot stands neither first nor last in it. Putting more after the
last name of a path changes no other name, and makes the path no shorter.
-/

namespace ImportAtlas

namespace Path

/-- Whether a name bears an ending: there is something on both sides of its last dot. -/
def BearsEnding (name : List Char) : Prop :=
  ∃ stem ending, name = stem ++ '.' :: ending ∧ stem ≠ [] ∧ ending ≠ [] ∧ '.' ∉ ending

/-- An ending begins at the last dot. -/
theorem endingStart_append (stem : List Char) {ending : List Char} (hdot : '.' ∉ ending) :
    endingStart (stem ++ '.' :: ending) =
      if stem ≠ [] ∧ ending ≠ [] then some stem.length else none := by
  have hfromDot : (stem ++ '.' :: ending).reverse.takeWhile (· != '.') = ending.reverse := by
    have hpass : ∀ c ∈ ending.reverse, (c != '.') = true := fun c hc =>
      bne_iff_ne.mpr fun heq => hdot (heq ▸ List.mem_reverse.mp hc)
    rw [List.reverse_append, List.reverse_cons, List.append_assoc,
      List.takeWhile_append_of_pos hpass]
    simp
  have hcontains : (stem ++ '.' :: ending).contains '.' = true := by simp
  rw [endingStart, hfromDot, if_pos hcontains, List.length_reverse, List.length_append,
    List.length_cons, show stem.length + (ending.length + 1) - ending.length - 1 = stem.length by omega]
  have hboth : (0 < stem.length ∧ stem.length < stem.length + (ending.length + 1) - 1) ↔
      stem ≠ [] ∧ ending ≠ [] := by
    rw [← List.length_pos_iff, ← List.length_pos_iff]
    omega
  simp only [Bool.and_eq_true, decide_eq_true_eq, hboth]

/-- Without a dot there is no ending. -/
theorem endingStart_of_notMem {name : List Char} (hdot : '.' ∉ name) : endingStart name = none := by
  rw [endingStart, if_neg (by simpa using hdot)]

/-- An ending is found exactly where a name bears one. -/
theorem isSome_endingStart_iff {name : List Char} :
    (endingStart name).isSome ↔ BearsEnding name := by
  constructor
  · intro h
    by_cases hdot : '.' ∈ name
    · obtain ⟨after, before, hname, hlast⟩ :=
        List.eq_append_cons_of_mem (List.mem_reverse.mpr hdot)
      have hcut : name = before.reverse ++ '.' :: after.reverse := by
        rw [← List.reverse_reverse name, hname]
        simp
      have hlast' : '.' ∉ after.reverse := fun hmem => hlast (List.mem_reverse.mp hmem)
      rw [hcut, endingStart_append _ hlast'] at h
      split at h
      · next hsides => exact ⟨_, _, hcut, hsides.1, hsides.2, hlast'⟩
      · cases h
    · rw [endingStart_of_notMem hdot] at h
      cases h
  · rintro ⟨stem, ending, rfl, hstem, hending, hdot⟩
    rw [endingStart_append stem hdot, if_pos ⟨hstem, hending⟩]
    rfl

instance (name : List Char) : Decidable (BearsEnding name) :=
  decidable_of_iff _ isSome_endingStart_iff

/-- A path has an ending if its last name bears one. -/
theorem hasEnding_iff {p : Path} : p.hasEnding ↔ BearsEnding p.name.toList :=
  isSome_endingStart_iff

/-- The last name of a path. -/
theorem name_concat (anchor : Anchor) (names : List String) (last : String) :
    Path.name ⟨anchor, names ++ [last]⟩ = last := by
  rw [Path.name, List.getLast?_concat]
  rfl

/-- An ending is added to a name that bears none. -/
theorem withEnding_concat {anchor : Anchor} {names : List String} {last : String}
    (h : ¬ BearsEnding last.toList) (ending : String) :
    withEnding ⟨anchor, names ++ [last]⟩ ending = ⟨anchor, names ++ [last ++ ending]⟩ := by
  have hnone : endingStart last.toList = none :=
    Option.not_isSome_iff_eq_none.mp fun hsome => h (isSome_endingStart_iff.mp hsome)
  simp only [withEnding, name_concat, hnone, List.dropLast_concat, String.ofList_toList]

/-- What is put after the last name ends the text of a path. -/
theorem toString_concat_append (anchor : Anchor) (names : List String) (last more : String) :
    toString ⟨anchor, names ++ [last ++ more]⟩ = toString ⟨anchor, names ++ [last]⟩ ++ more := by
  have hnames (name : String) : ¬ (anchor = .relative ∧ names ++ [name] = []) := by simp
  rw [toString, toString, if_neg (hnames _), if_neg (hnames _), String.append_assoc]
  by_cases hempty : names = []
  · rw [hempty, List.nil_append, List.nil_append, String.intercalate_singleton,
      String.intercalate_singleton]
  · rw [String.intercalate_append_of_ne_nil hempty (by simp),
      String.intercalate_append_of_ne_nil hempty (by simp), String.intercalate_singleton,
      String.intercalate_singleton, String.append_assoc, String.append_assoc, String.append_assoc]

/-- What is named in a folder is the last of the names. -/
theorem ofString_append_slash {folder name : String} (hfolder : folder.toList.head? = some '.')
    (hname : IsStep name) :
    ofString (folder ++ "/" ++ name) = ⟨.relative, (ofString folder).names ++ [name]⟩ := by
  obtain ⟨hne, hdot, hslash⟩ := hname
  obtain ⟨rest, hchars⟩ : ∃ rest, folder.toList = '.' :: rest := by
    cases hchars : folder.toList with
    | nil => rw [hchars] at hfolder; cases hfolder
    | cons c rest =>
      rw [hchars] at hfolder
      cases hfolder
      exact ⟨rest, rfl⟩
  have htext : (folder ++ "/" ++ name).toList = folder.toList ++ '/' :: name.toList := by simp
  have hanchor : anchorOf (folder.toList ++ '/' :: name.toList) = .relative :=
    anchorOf_of_head_ne (by rw [hchars, List.cons_append, List.head?_cons]; decide)
  rw [ofString, htext, hanchor, Text.splitAt_append_separator, Text.splitAt_of_notMem hslash]
  simp [ofString, hne, hdot]

end Path

namespace FileTree

/-- A name stays too long if it goes on. -/
theorem meetsLongName_append {tree : FileTree} {start names : List String} {last more : String}
    (h : tree.meetsLongName start (names ++ [last])) :
    tree.meetsLongName start (names ++ [last ++ more]) := by
  induction names generalizing start with
  | nil =>
    rw [List.nil_append, meetsLongName] at h ⊢
    split at h
    · next hfolder =>
      split at h
      · cases h
      · have hlong : longestName < (Text.encode (last ++ more).toList).length := by
          have hlast : longestName < (Text.encode last.toList).length := by
            simpa [meetsLongName] using h
          rw [String.toList_append, Text.encode, List.flatMap_append, List.length_append]
          exact Nat.lt_add_right _ hlast
        have hname : last ++ more ≠ ".." := fun heq => by
          rw [heq] at hlong
          exact absurd hlong (by decide)
        rw [if_pos hfolder, if_neg hname, Bool.or_eq_true]
        exact .inl (decide_eq_true hlong)
    · cases h
  | cons name names ih =>
    rw [List.cons_append, meetsLongName] at h ⊢
    split at h
    · next hfolder =>
      rw [if_pos hfolder]
      split at h
      · next hup =>
        rw [if_pos hup]
        exact ih h
      · next hdown =>
        rw [if_neg hdown]
        rw [Bool.or_eq_true] at h ⊢
        exact h.imp_right ih
    · cases h

/-- A path stays too long if its last name goes on. -/
theorem isTooLong_append {tree : FileTree} {anchor : Anchor} {names : List String}
    {last more : String} (hmore : '\x00' ∉ more.toList)
    (h : tree.isTooLong ⟨anchor, names ++ [last]⟩) :
    tree.isTooLong ⟨anchor, names ++ [last ++ more]⟩ := by
  rw [isTooLong, Bool.and_eq_true, Bool.or_eq_true] at h ⊢
  obtain ⟨hsound, hlong⟩ := h
  refine ⟨?_, hlong.imp (fun hpath => ?_) meetsLongName_append⟩
  · simp only [Path.isSound, List.all_append, Bool.and_eq_true] at hsound ⊢
    refine ⟨hsound.1, ?_⟩
    simpa [hmore] using hsound.2
  · rw [decide_eq_true_eq] at hpath ⊢
    rw [Path.toString_concat_append, String.toList_append, Text.encode, List.flatMap_append,
      List.length_append]
    exact Nat.lt_add_right _ hpath

end FileTree

end ImportAtlas
