import ImportAtlas.Glob.Match
import ImportAtlas.Proofs.Outcome

/-!
# What a list of globs selects

The globs of a list are those that its patterns come to. Where none of them takes anything out again, the
list selects the names in which one of them is found, and neither their order nor the way in which they
match counts.
-/

namespace ImportAtlas

namespace GlobSet

variable {patterns : List String} {set : GlobSet} {g : Glob.Compiled} {name : List Char}

/-- The globs of a list are what its patterns come to when their braces are expanded. -/
theorem mem_globs_ofPatterns (h : ofPatterns patterns = .ok set) : g ∈ set.globs ↔
    ∃ p ∈ patterns, ∃ text ∈ Glob.expandBraces p.toList, Glob.compile text = .ok (some g) := by
  rw [ofPatterns] at h
  obtain ⟨compiled, hcompiled, h⟩ := exists_of_bind_eq_ok h
  cases h
  simp only [List.mem_filterMap, id, exists_eq_right, mem_mapM_iff hcompiled, List.mem_flatMap]
  constructor
  · rintro ⟨text, ⟨p, hp, htext⟩, hg⟩
    exact ⟨p, hp, text, htext, hg⟩
  · rintro ⟨p, hp, text, htext, hg⟩
    exact ⟨text, ⟨p, hp, htext⟩, hg⟩

/-- A list of globs can be used if what its patterns stand for can be compiled. -/
theorem exists_ofPatterns
    (h : ∀ p ∈ patterns, ∀ text ∈ Glob.expandBraces p.toList, ∃ g, Glob.compile text = .ok g) :
    ∃ set, ofPatterns patterns = .ok set := by
  obtain ⟨compiled, hcompiled⟩ := @exists_mapM _ _ _ Glob.compile
    (patterns.flatMap fun p => Glob.expandBraces p.toList) fun text htext => by
      obtain ⟨p, hp, htext⟩ := List.mem_flatMap.mp htext
      exact h p hp text htext
  exact ⟨_, by rw [ofPatterns, hcompiled]; rfl⟩

/-- What matches is decided by the globs that are compiled. -/
theorem matchesAny_eq (h : ofPatterns patterns = .ok set) :
    matchesAny patterns name = .ok (set.selects name) := by
  cases patterns with
  | nil =>
    cases h
    rfl
  | cons first others =>
    rw [matchesAny, if_neg (by simp), h]
    rfl

/-- Where something is selected, the globs can be compiled. -/
theorem exists_of_matchesAny (h : matchesAny patterns name = .ok true) :
    ∃ set, ofPatterns patterns = .ok set ∧ set.selects name := by
  cases hset : ofPatterns patterns with
  | error cause =>
    cases patterns with
    | nil => cases h
    | cons first others =>
      rw [matchesAny, if_neg (by simp), hset] at h
      cases h
  | ok set =>
    rw [matchesAny_eq hset, Except.ok.injEq] at h
    exact ⟨set, rfl, h⟩

/-- The last glob that matches in a certain way is one of the globs and matches so. -/
theorem strength_of_last? {strength : Glob.Strength} (h : set.last? strength name = some g) :
    g ∈ set.globs ∧ g.strength name = some strength := by
  rw [last?] at h
  exact ⟨List.mem_reverse.mp (List.mem_of_find?_eq_some h), beq_iff_eq.mp (@List.find?_some _ _ g _ h)⟩

/-- If a glob matches in a certain way, there is a last one that does. -/
theorem last?_ne_none {strength : Glob.Strength} (hg : g ∈ set.globs)
    (h : g.strength name = some strength) : set.last? strength name ≠ none := by
  rw [last?, Ne, List.find?_eq_none]
  intro hnone
  exact hnone g (List.mem_reverse.mpr hg) (beq_iff_eq.mpr h)

/-- A glob that is found in a name matches it in one way or the other. -/
theorem exists_strength_iff :
    (∃ strength, g.strength name = some strength) ↔ (g.pattern.search name).isSome := by
  rw [Glob.Compiled.strength, ← Option.isSome_iff_exists, Option.isSome_map]

/-- Globs none of which takes anything out select the names in which one of them is found. -/
theorem selects_iff (h : ∀ g ∈ set.globs, g.negated = false) : set.selects name ↔
    ∃ g ∈ set.globs, (g.pattern.search (Glob.relativeName name)).isSome := by
  rw [selects, Option.orElse_eq_or]
  generalize Glob.relativeName name = name
  cases hlast : (set.last? .itself name).or (set.last? .directory name) with
  | none =>
    obtain ⟨hitself, hdirectory⟩ := Option.or_eq_none_iff.mp hlast
    refine iff_of_false Bool.false_ne_true ?_
    rintro ⟨g, hg, hfound⟩
    obtain ⟨strength, hstrength⟩ := exists_strength_iff.mpr hfound
    cases strength with
    | directory => exact last?_ne_none hg hstrength hdirectory
    | itself => exact last?_ne_none hg hstrength hitself
  | some g =>
    have hg : g ∈ set.globs ∧ ∃ strength, g.strength name = some strength := by
      rcases Option.or_eq_some_iff.mp hlast with hitself | ⟨-, hdirectory⟩
      · exact ⟨(strength_of_last? hitself).1, _, (strength_of_last? hitself).2⟩
      · exact ⟨(strength_of_last? hdirectory).1, _, (strength_of_last? hdirectory).2⟩
    refine iff_of_true ?_ ⟨g, hg.1, exists_strength_iff.mp hg.2⟩
    dsimp only
    rw [h g hg.1]
    rfl

end GlobSet

end ImportAtlas
