import ImportAtlas.Proofs.Glob.Alternation
import ImportAtlas.Proofs.Glob.Segments
import ImportAtlas.Proofs.Glob.Selecting
import ImportAtlas.Proofs.Text.Runs
import ImportAtlas.Proofs.Text.Splitting

/-!
# Globs of one name

A glob without slashes stands for a name in any directory. It is searched for in the whole path, so that it
matches as well where it fits the name of a directory on the way; and the directories before the name that
it fits may hold no newline, which the pattern of any directories does not pass.
-/

namespace ImportAtlas.Glob

open Pattern

open scoped Text.AlongRun

/-- A glob of one name, without groups, brackets and escapes, that is neither blank nor a comment and takes
nothing out again. -/
def IsNameGlob (text : List Char) : Prop :=
  (∀ c ∈ ['/', '\x7b', '\x7d', '[', ']', '\\'], c ∉ text) ∧
    text.head? ≠ Option.some '!' ∧ text.head? ≠ Option.some '#' ∧ Text.stripRight text ≠ []

instance (text : List Char) : Decidable (IsNameGlob text) :=
  inferInstanceAs (Decidable (_ ∧ _ ∧ _ ∧ _))

/-- The pattern of a name in any directory. -/
def nameAnywhere (own : Pattern) : Pattern :=
  .seq leadingDeep (.all [.empty, .empty, own, nameEnd, .empty])

/-- A name fits the pattern of one. -/
def Fits (own : Pattern) (name : List Char) : Prop := ∃ gs, own.Accepts [] name [] gs

/-- What stands before a name in any directory: nothing, or directories without newlines. -/
def IsLead (lead : List Char) : Prop := lead = [] ∨ ∃ folders, folders ≠ [] ∧ '\n' ∉ folders ∧
  lead = folders ++ ['/']

/-- What can stand behind a name: a slash and anything, nothing, or a last newline. -/
def IsTail (tail : List Char) : Prop := (∃ rest, tail = '/' :: rest) ∨ tail = [] ∨ tail = ['\n']

/-- Any directories before a name. -/
theorem accepts_leadingDeep {left s right : List Char} {gs : List (List Char)} :
    leadingDeep.Accepts left s right gs ↔ left = [] ∧ IsLead s ∧ gs = [] := by
  constructor
  · rintro ⟨s, t, gs, hs, rfl, rfl, ⟨rfl, rfl, rfl⟩, hlead⟩
    rcases hlead with ⟨s, t, gs, hs, rfl, rfl, hfolders, ⟨c, hc, rfl⟩, rfl⟩ | ⟨rfl, rfl⟩
    · obtain ⟨hne, hlines, rfl⟩ := accepts_some.mp hfolders
      refine ⟨rfl, .inr ⟨s, hne, fun hnewline => ?_, by rw [beq_iff_eq.mp hc]; rfl⟩, rfl⟩
      exact absurd (hlines '\n' hnewline) (by decide)
    · exact ⟨rfl, .inl rfl, rfl⟩
  · rintro ⟨rfl, hlead, rfl⟩
    rcases hlead with rfl | ⟨folders, hne, hlines, rfl⟩
    · exact ⟨[], [], [], [], rfl, rfl, ⟨rfl, rfl, rfl⟩, .inr ⟨rfl, rfl⟩⟩
    · have hfolders : ∀ c ∈ folders, (c != '\n') = true := fun c hc =>
        bne_iff_ne.mpr fun heq => hlines (heq ▸ hc)
      exact ⟨[], _, [], [], rfl, rfl, ⟨rfl, rfl, rfl⟩, .inl ⟨folders, ['/'], [], [], rfl, rfl,
        accepts_some.mpr ⟨hne, hfolders, rfl⟩, ⟨'/', rfl, rfl⟩, rfl⟩⟩

section NameAnywhere

variable {own : Pattern} {name rest text : List Char}

/-- A name in any directory is found where it fits what stands between directories and a possible end. -/
theorem isSome_search_nameAnywhere (hown : IsNamePattern own) :
    ((nameAnywhere own).search text).isSome ↔
      ∃ lead c tail, text = lead ++ (c ++ tail) ∧ IsLead lead ∧ Fits own c ∧ IsTail tail := by
  rw [isSome_search_iff]
  constructor
  · rintro ⟨left, s, right, gs, rfl, lead, s, gs, hs, rfl, rfl, hdeep, hname⟩
    obtain ⟨rfl, hlead, rfl⟩ := accepts_leadingDeep.mp hdeep
    obtain ⟨c, mark, inner, marks, rfl, rfl, hc, hmark⟩ :=
      accepts_name_nameEnd.mp (accepts_empty_seq.mp (accepts_empty_seq.mp hname))
    refine ⟨lead, c, mark ++ right, by simp, hlead, ⟨inner, hown.accepts_congr hc⟩, ?_⟩
    rcases hmark with ⟨rfl, -⟩ | ⟨rfl, -, hright⟩
    · exact .inl ⟨right, rfl⟩
    · exact .inr hright
  · rintro ⟨lead, c, tail, rfl, hlead, ⟨inner, hc⟩, htail⟩
    have hfound (mark right : List Char) {marks : List (List Char)} (htail : tail = mark ++ right)
        (hmark : mark = ['/'] ∧ marks = [['/']] ∨
          mark = [] ∧ marks = [] ∧ (right = [] ∨ right = ['\n'])) :
        ∃ left s right gs, lead ++ (c ++ tail) = left ++ (s ++ right) ∧
          (nameAnywhere own).Accepts left s right gs := by
      refine ⟨[], lead ++ (c ++ mark), right, [] ++ (inner ++ marks), by simp [htail], lead, c ++ mark, [], _,
        rfl, rfl, accepts_leadingDeep.mpr ⟨rfl, hlead, rfl⟩, accepts_empty_seq.mpr (accepts_empty_seq.mpr ?_)⟩
      exact accepts_name_nameEnd.mpr ⟨c, mark, inner, marks, rfl, rfl, hown.accepts_congr hc, hmark⟩
    rcases htail with ⟨right, rfl⟩ | hright
    · exact hfound ['/'] right rfl (.inl ⟨rfl, rfl⟩)
    · exact hfound [] tail rfl (.inr ⟨rfl, rfl, hright⟩)

/-- Where two texts are cut at their first slash, their parts are the same. -/
theorem eq_of_append_slash {name' rest' : List Char} (hname : '/' ∉ name) (hname' : '/' ∉ name')
    (h : name ++ '/' :: rest = name' ++ '/' :: rest') : name = name' ∧ rest = rest' := by
  have hrun {name : List Char} (hname : '/' ∉ name) : ∀ c ∈ name, notSlash c := fun c hc =>
    bne_iff_ne.mpr fun heq => hname (heq ▸ hc)
  obtain ⟨hsame, htail⟩ := Text.run_unique (hrun hname) (hrun hname') (Text.stops_cons.mpr rfl)
    (Text.stops_cons.mpr rfl) h
  exact ⟨hsame, (List.cons.inj htail).2⟩

/-- A name in any directory is found below a directory if the directory's name fits, or if it holds no
newline and the name is found in what is below. -/
theorem isSome_search_nameAnywhere_append (hown : IsNamePattern own) (hne : name ≠ [])
    (hname : '/' ∉ name) (hrest : rest.head? ≠ Option.some '/') :
    ((nameAnywhere own).search (name ++ '/' :: rest)).isSome ↔
      Fits own name ∨ '\n' ∉ name ∧ ((nameAnywhere own).search rest).isSome := by
  rw [isSome_search_nameAnywhere hown, isSome_search_nameAnywhere hown]
  constructor
  · rintro ⟨lead, c, tail, heq, hlead, hfits, htail⟩
    have hc : '/' ∉ c := hfits.elim fun _ h => hown.notMem h
    rcases hlead with rfl | ⟨folders, hfolders, hlines, rfl⟩
    · have hslash : '/' ∈ c ++ tail := heq ▸ (by simp)
      rcases htail with ⟨back, rfl⟩ | rfl | rfl
      · exact .inl ((eq_of_append_slash hname hc heq).1 ▸ hfits)
      · exact absurd (by simpa using hslash) hc
      · exact absurd (by simpa using hslash) hc
    · obtain ⟨first, more, rfl, hfirst, hmore⟩ := exists_name folders
      rw [List.mem_append, not_or] at hlines
      rcases hmore with rfl | ⟨more, rfl⟩
      · obtain ⟨rfl, rfl⟩ := eq_of_append_slash hname hfirst (by simpa using heq)
        exact .inr ⟨hlines.1, [], c, tail, rfl, .inl rfl, hfits, htail⟩
      · obtain ⟨rfl, rfl⟩ := @eq_of_append_slash name rest first (more ++ '/' :: (c ++ tail)) hname hfirst
          (by simpa using heq)
        have hmore : more ≠ [] := by
          rintro rfl
          exact hrest rfl
        exact .inr ⟨hlines.1, more ++ ['/'], c, tail, by simp,
          .inr ⟨more, hmore, List.not_mem_of_not_mem_cons hlines.2, rfl⟩, hfits, htail⟩
  · rintro (hfits | ⟨hline, lead, c, tail, rfl, hlead, hfits, htail⟩)
    · exact ⟨[], name, '/' :: rest, rfl, .inl rfl, hfits, .inl ⟨rest, rfl⟩⟩
    · rcases hlead with rfl | ⟨folders, -, hlines, rfl⟩
      · exact ⟨name ++ ['/'], c, tail, by simp, .inr ⟨name, hne, hline, rfl⟩, hfits, htail⟩
      · refine ⟨name ++ '/' :: folders ++ ['/'], c, tail, by simp,
          .inr ⟨name ++ '/' :: folders, by simp, ?_, rfl⟩, hfits, htail⟩
        simp [hline, hlines]

/-- A name in any directory is found in what is shown of one directory if its name fits. -/
theorem isSome_search_nameAnywhere_folder (hown : IsNamePattern own) (hne : name ≠ [])
    (hname : '/' ∉ name) : ((nameAnywhere own).search (name ++ ['/'])).isSome ↔ Fits own name := by
  rw [isSome_search_nameAnywhere_append hown hne hname (by simp)]
  refine or_iff_left_of_imp ?_
  rintro ⟨-, hnothing⟩
  obtain ⟨lead, c, tail, heq, -, ⟨gs, hfits⟩, -⟩ := (isSome_search_nameAnywhere hown).mp hnothing
  obtain ⟨-, hrest⟩ := List.append_eq_nil_iff.mp heq.symm
  obtain ⟨rfl, -⟩ := List.append_eq_nil_iff.mp hrest
  exact hown.of_nil hfits hname

end NameAnywhere

/-- A pattern to which a glob of one name comes: any character in a line, or a name in any directory. -/
def IsNameGlobPattern (p : Pattern) : Prop :=
  p = .one (· != '\n') ∨ ∃ own, IsNamePattern own ∧ p = nameAnywhere own

/-- A glob of one name selects something below a directory if it selects the directory, or if the name of
the directory holds no newline and it selects what is below. -/
theorem IsNameGlobPattern.isSome_search_append {p : Pattern} (hp : IsNameGlobPattern p)
    {name rest : List Char} (hne : name ≠ []) (hname : '/' ∉ name)
    (hrest : rest.head? ≠ Option.some '/') :
    (p.search (name ++ '/' :: rest)).isSome ↔
      (p.search (name ++ ['/'])).isSome ∨ '\n' ∉ name ∧ (p.search rest).isSome := by
  rcases hp with rfl | ⟨own, hown, rfl⟩
  · have hslash (rest : List Char) :
        ((Pattern.one (· != '\n')).search (name ++ '/' :: rest)).isSome :=
      isSome_search_iff.mpr ⟨name, ['/'], rest, [], rfl, ⟨'/', by decide, rfl⟩, rfl⟩
    exact iff_of_true (hslash rest) (.inl (hslash []))
  · rw [isSome_search_nameAnywhere_append hown hne hname hrest,
      isSome_search_nameAnywhere_folder hown hne hname]

/-- A glob of one name is more than the blanks at its end. -/
theorem IsNameGlob.trimEnd_ne_nil {text : List Char} (h : IsNameGlob text) : trimEnd text ≠ [] := by
  have hescape : '\\' ∉ text := h.1 '\\' (by decide)
  rw [trimEnd, if_neg fun hsuffix => ?_]
  · exact h.2.2.2
  · exact hescape ((List.isSuffixOf_iff_suffix.mp hsuffix).subset List.mem_cons_self)

/-- The segments of a name alone. -/
theorem normalSegments_singleton {name : List Char} (hne : name ≠ []) : normalSegments [name] =
    if name = ['*', '*'] then [['*', '*']] else [['*', '*'], name] := by
  obtain ⟨c, rest, rfl⟩ := List.exists_cons_of_ne_nil hne
  split
  · next hdeep =>
    rw [hdeep]
    decide
  · next hdeep => simp [normalSegments, hdeep, collapseDeep]

/-- The pattern of a name in any directory. -/
theorem exists_wholePattern_name {pieces : List Piece} (hne : pieces ≠ [])
    (hpieces : ∀ piece ∈ pieces, piece.isWithinName) (directory : Bool) :
    ∃ p, wholePattern directory [.deep, .name pieces] = .ok p ∧ IsNameGlobPattern p := by
  by_cases hstar : pieces = [.star]
  · exact ⟨.one (· != '\n'), by rw [hstar]; rfl, .inl rfl⟩
  · obtain ⟨own, hpieces_own⟩ := exists_piecesPattern hpieces
    have hown : namePattern pieces = .ok own := by rw [namePattern, if_neg hstar, hpieces_own]
    refine ⟨nameAnywhere own, ?_, .inr ⟨own, isNamePattern_namePattern hne hpieces hown, rfl⟩⟩
    have hwhole : wholePattern directory [.deep, .name pieces] =
        segmentsPattern directory true false [.deep, .name pieces] := by
      rw [wholePattern] <;> intro heq <;> cases heq
      exact hstar rfl
    rw [hwhole, segmentsPattern, segmentsPattern, if_neg hstar, hpieces_own]
    · rfl
    · exact List.cons_ne_nil _ _

/-- A name without escapes and brackets is read in any directory. -/
theorem exists_readSegments_name {name : List Char} (hne : name ≠ []) (hdeep : name ≠ ['*', '*'])
    (hslash : '/' ∉ name) (hescape : '\\' ∉ name) (hbracket : '[' ∉ name) :
    ∃ pieces, readSegments [['*', '*'], name] = .ok [.deep, .name pieces] ∧ pieces ≠ [] ∧
      ∀ piece ∈ pieces, piece.isWithinName := by
  obtain ⟨pieces, hread⟩ := exists_readSegment hescape hbracket (name.length + 1)
  refine ⟨pieces, ?_, ne_nil_of_readSegment (Nat.succ_pos _) hne hread,
    isWithinName_of_readSegment hslash hbracket hread⟩
  simp only [readSegments, Segment.read, if_neg hdeep, hread]
  rfl

/-- A glob of one name is compiled to a pattern of a name anywhere. -/
theorem IsNameGlob.exists_compile {text : List Char} (h : IsNameGlob text) :
    ∃ p, compile text = .ok (Option.some ⟨false, p⟩) ∧ IsNameGlobPattern p := by
  have hne := h.trimEnd_ne_nil
  have hnotMem {c : Char} (hc : c ∈ ['/', '\x7b', '\x7d', '[', ']', '\\']) : c ∉ trimEnd text := fun hin =>
    h.1 c hc ((trimEnd_isPrefix text).subset hin)
  have hsplit : Text.splitAt '/' (trimEnd text) = [trimEnd text] :=
    Text.splitAt_of_notMem (hnotMem (by decide))
  have hslash : trimEnd text ≠ ['/'] := fun heq => absurd (heq ▸ List.mem_cons_self) (hnotMem (by decide))
  have hcomment : (trimEnd text).head? ≠ Option.some '#' := fun hhead => h.2.2.1 (head?_of_head?_trimEnd hhead)
  have hnegated : ((trimEnd text).head? == Option.some '!') = false :=
    beq_false_of_ne fun hhead => h.2.1 (head?_of_head?_trimEnd hhead)
  have hdirectory : (([trimEnd text] : List (List Char)).getLast? == Option.some []) = false :=
    beq_false_of_ne fun hlast => hne (Option.some.inj hlast)
  rw [compile]
  dsimp only
  rw [if_neg (by simp [hne, hcomment, hslash]), hnegated]
  simp only [Bool.false_eq_true, if_false, hsplit, normalSegments_singleton hne, hdirectory]
  split
  · exact ⟨.one (· != '\n'), rfl, .inl rfl⟩
  · next hdeep =>
    obtain ⟨pieces, hread, hpieces, hwithin⟩ := exists_readSegments_name hne hdeep
      (hnotMem (by decide)) (hnotMem (by decide)) (hnotMem (by decide))
    obtain ⟨p, hwhole, hp⟩ := exists_wholePattern_name hpieces hwithin false
    refine ⟨p, ?_, hp⟩
    rw [hread]
    dsimp only
    rw [hwhole]
    rfl

/-- A glob of one name stands for itself alone. -/
theorem IsNameGlob.expandBraces_eq {text : List Char} (h : IsNameGlob text) : expandBraces text = [text] := by
  refine expandBraces_of_none (firstGroup?_eq_none_iff.mpr ?_)
  rintro ⟨head, body, tail, heq, -⟩
  exact h.1 '\x7b' (by decide) (heq ▸ by simp)

/-- A glob of one name is found in a name if its pattern is. -/
theorem IsNameGlob.exists_matchesAny {p : String} (h : IsNameGlob p.toList) :
    ∃ pattern, IsNameGlobPattern pattern ∧ compile p.toList = .ok (Option.some ⟨false, pattern⟩) ∧
      ∀ name, matchesAny [p] name = .ok (pattern.search (relativeName name)).isSome := by
  obtain ⟨pattern, hcompile, hpattern⟩ := h.exists_compile
  have hset : GlobSet.ofPatterns [p] = .ok ⟨[⟨false, pattern⟩]⟩ := by
    simp [GlobSet.ofPatterns, h.expandBraces_eq, hcompile, bind, Except.bind, pure, Except.pure]
  refine ⟨pattern, hpattern, hcompile, fun name => ?_⟩
  rw [GlobSet.matchesAny_eq hset, Except.ok.injEq, Bool.eq_iff_iff, GlobSet.selects_iff (by simp)]
  simp

section Lists

variable {globs : List String} (hglobs : ∀ p ∈ globs, IsNameGlob p.toList)

include hglobs

/-- Globs of one name can be compiled. -/
theorem exists_ofPatterns_nameGlobs : ∃ set, GlobSet.ofPatterns globs = .ok set := by
  refine GlobSet.exists_ofPatterns fun p hp text htext => ?_
  rw [(hglobs p hp).expandBraces_eq, List.mem_singleton] at htext
  obtain ⟨pattern, hcompile, -⟩ := (hglobs p hp).exists_compile
  exact ⟨_, htext ▸ hcompile⟩

/-- Globs of one name select what one of them selects. -/
theorem exists_of_matchesAny_nameGlobs {text : List Char} (h : matchesAny globs text = .ok true) :
    ∃ p ∈ globs, matchesAny [p] text = .ok true := by
  obtain ⟨set, hset, hselects⟩ := GlobSet.exists_of_matchesAny h
  have hmem {g : Compiled} (hg : g ∈ set.globs) :
      ∃ p ∈ globs, compile p.toList = .ok (Option.some g) := by
    obtain ⟨p, hp, text, htext, hcompile⟩ := (GlobSet.mem_globs_ofPatterns hset).mp hg
    rw [(hglobs p hp).expandBraces_eq, List.mem_singleton] at htext
    exact ⟨p, hp, htext ▸ hcompile⟩
  have hpositive : ∀ g ∈ set.globs, g.negated = false := fun g hg => by
    obtain ⟨p, hp, hcompile⟩ := hmem hg
    obtain ⟨pattern, hpattern, -⟩ := (hglobs p hp).exists_compile
    cases hcompile.symm.trans hpattern
    rfl
  obtain ⟨g, hg, hfound⟩ := (GlobSet.selects_iff hpositive).mp hselects
  obtain ⟨p, hp, hcompile⟩ := hmem hg
  obtain ⟨pattern, -, hpattern, hmatches⟩ := (hglobs p hp).exists_matchesAny
  cases hcompile.symm.trans hpattern
  exact ⟨p, hp, by rw [hmatches, hfound]⟩

end Lists

end ImportAtlas.Glob
