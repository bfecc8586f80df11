import Mathlib.Data.List.Lex
import ImportAtlas.Alias.Pattern
import ImportAtlas.Proofs.Pattern.Preference
import ImportAtlas.Proofs.Text.Splitting

/-!
# What an alias matches

Whatever characters an alias holds, its regular expression is read as these characters themselves, but for
its stars: a backslash of the alias is escaped too, so that a star behind it is still replaced by a
group, and nothing else is. An alias thus matches the specifiers that are the alias with a text in the
place of each star. Where there are several ways to choose the texts, the first text is as long as it
can be, then the second, and so on, as the lengths of the texts are tried from the longest down.
-/

namespace ImportAtlas

namespace Expression

variable {c : Char}

/-- What means something in a regular expression is escaped. -/
theorem mem_escapedChars (h : c ∈ metaChars) : c ∈ escapedChars :=
  (by decide : metaChars ⊆ escapedChars) h

/-- What is escaped is neither a letter nor a digit. -/
theorem not_isAlphanum_of_mem_escapedChars (h : c ∈ escapedChars) : ¬ c.isAlphanum := by
  have hnone : escapedChars.all fun c => !c.isAlphanum := by decide
  simpa using List.all_eq_true.mp hnone c h

/-- A character as it is written to stand for itself is read as that. -/
theorem read?_escapeChar (c : Char) (rest : List Char) :
    read? (escapeChar c ++ rest) = (read? rest).map (.seq (.one (· == c))) := by
  rw [escapeChar]
  split
  · next hescaped =>
    rw [List.cons_append, List.cons_append, List.nil_append, read?,
      if_neg (not_isAlphanum_of_mem_escapedChars hescaped)]
  · next hplain =>
    have hmeta : c ∉ metaChars := fun h => hplain (mem_escapedChars h)
    have hne {d : Char} (hd : d ∈ metaChars) : c ≠ d := fun h => hmeta (h ▸ hd)
    have hstart : c ≠ '^' := hne (by decide)
    have hend : c ≠ '$' := hne (by decide)
    have hgroup : c ≠ '(' := hne (by decide)
    have hslash : c ≠ '\\' := hne (by decide)
    rw [List.singleton_append, read?, if_neg hmeta]
    · exact fun h => absurd h hstart
    · exact fun h => absurd h hend
    · exact fun _ h => absurd h hgroup
    · exact fun _ _ h => absurd h hslash

end Expression

section Reading

variable {pattern rest : List Char} {c : Char}

/-- No star of an escaped text is without a backslash. -/
theorem head?_escape (pattern : List Char) : (Expression.escape pattern).head? ≠ some '*' := by
  cases pattern with
  | nil => exact nofun
  | cons c pattern =>
    rw [Expression.escape, List.flatMap_cons, Expression.escapeChar]
    split
    · exact fun h => absurd (Option.some.inj h) (by decide)
    · next hplain =>
      intro h
      exact hplain (Option.some.inj h ▸ by decide)

/-- What is no backslash in front of a star is left as it is. -/
theorem groupStars_cons (h : c = '\\' → rest.head? ≠ some '*') :
    groupStars (c :: rest) = c :: groupStars rest := by
  rw [groupStars]
  rintro others rfl rfl
  exact h rfl rfl

/-- Every star of an alias becomes a group, and every other character stays as it was escaped. -/
theorem groupStars_escape (pattern : List Char) :
    groupStars (Expression.escape pattern) = pattern.flatMap fun c =>
      if c = '*' then ['(', '.', '*', ')'] else Expression.escapeChar c := by
  induction pattern with
  | nil => rfl
  | cons c pattern ih =>
    rw [List.flatMap_cons, ← ih, Expression.escape, List.flatMap_cons, ← Expression.escape]
    split
    · next hstar =>
      subst hstar
      rfl
    · next hstar =>
      have hhead := head?_escape pattern
      have hnext : (c :: Expression.escape pattern).head? ≠ some '*' := fun h =>
        hstar (Option.some.inj h)
      rw [Expression.escapeChar]
      split
      · rw [List.cons_append, List.cons_append, List.nil_append, groupStars_cons fun _ => hnext,
          groupStars_cons fun _ => hhead]
        rfl
      · rw [List.singleton_append, groupStars_cons fun _ => hhead]
        rfl

/-- What a character of an alias is read as. -/
def aliasStep (c : Char) : Pattern :=
  if c = '*' then .capture (.many (· != '\n')) else .one (· == c)

/-- What an alias is read as, from one of its characters on. -/
def aliasTail : List Char → Pattern
  | [] => .seq .textEnd .empty
  | c :: rest => .seq (aliasStep c) (aliasTail rest)

/-- The pattern of an alias takes any text of one line for a star and only itself for any other
character. -/
theorem aliasPattern?_eq (pattern : List Char) :
    aliasPattern? pattern = some (.seq .textStart (aliasTail pattern)) := by
  have htail : Expression.read? (groupStars (Expression.escape pattern) ++ ['$']) =
      some (aliasTail pattern) := by
    rw [groupStars_escape]
    induction pattern with
    | nil => rfl
    | cons c pattern ih =>
      rw [List.flatMap_cons, List.append_assoc, aliasTail, aliasStep]
      split
      · rw [List.cons_append, List.cons_append, List.cons_append, List.cons_append, List.nil_append,
          Expression.read?, ih]
        rfl
      · rw [Expression.read?_escapeChar, ih]
        rfl
  rw [aliasPattern?, aliasExpression, List.cons_append, Expression.read?, htail]
  rfl

end Reading

/-- Texts for the stars of an alias, from one of its characters on, make it a specifier. -/
def Fills : (pattern : List Char) → (texts : List (List Char)) → (specifier : List Char) → Prop
  | [], texts, specifier => texts = [] ∧ specifier = []
  | c :: pattern, texts, specifier =>
    if c = '*' then
      ∃ text others rest, texts = text :: others ∧ specifier = text ++ rest ∧ Fills pattern others rest
    else ∃ rest, specifier = c :: rest ∧ Fills pattern texts rest

section Filling

variable {pattern specifier : List Char} {texts texts' : List (List Char)} {c : Char}

/-- A star is filled by the first text. -/
theorem fills_star : Fills ('*' :: pattern) texts specifier ↔
    ∃ text others rest, texts = text :: others ∧ specifier = text ++ rest ∧
      Fills pattern others rest := by
  rw [Fills, if_pos rfl]

/-- Every other character is found in the specifier. -/
theorem fills_char (hc : c ≠ '*') : Fills (c :: pattern) texts specifier ↔
    ∃ rest, specifier = c :: rest ∧ Fills pattern texts rest := by
  rw [Fills, if_neg hc]

/-- The texts for the stars of an alias are determined by their lengths. -/
theorem Fills.eq_of_lengths (h : Fills pattern texts specifier) (h' : Fills pattern texts' specifier)
    (hlengths : texts.map List.length = texts'.map List.length) : texts = texts' := by
  induction pattern generalizing texts texts' specifier with
  | nil => rw [h.1, h'.1]
  | cons c pattern ih =>
    by_cases hc : c = '*'
    · subst hc
      obtain ⟨text, others, rest, rfl, rfl, hrest⟩ := fills_star.mp h
      obtain ⟨text', others', rest', rfl, heq, hrest'⟩ := fills_star.mp h'
      rw [List.map_cons, List.map_cons, List.cons.injEq] at hlengths
      obtain ⟨rfl, rfl⟩ := List.append_inj heq hlengths.1
      rw [ih hrest hrest' hlengths.2]
    · obtain ⟨rest, rfl, hrest⟩ := (fills_char hc).mp h
      obtain ⟨rest', heq, hrest'⟩ := (fills_char hc).mp h'
      cases heq
      exact ih hrest hrest' hlengths

/-- The pattern of an alias accepts a specifier of one line with the texts for its stars. -/
theorem accepts_of_fills (h : Fills pattern texts specifier) (hline : '\n' ∉ specifier)
    (left : List Char) : (aliasTail pattern).Accepts left specifier [] texts := by
  induction pattern generalizing texts specifier left with
  | nil =>
    obtain ⟨rfl, rfl⟩ := h
    exact ⟨[], [], [], [], rfl, rfl, ⟨.inl rfl, rfl, rfl⟩, rfl, rfl⟩
  | cons c pattern ih =>
    by_cases hc : c = '*'
    · subst hc
      obtain ⟨text, others, rest, rfl, rfl, hrest⟩ := fills_star.mp h
      rw [List.mem_append, not_or] at hline
      refine ⟨text, rest, [text], others, rfl, rfl, ?_, ih hrest hline.2 _⟩
      refine ⟨[], ⟨fun d hmem => bne_iff_ne.mpr ?_, rfl⟩, rfl⟩
      rintro rfl
      exact hline.1 hmem
    · obtain ⟨rest, rfl, hrest⟩ := (fills_char hc).mp h
      rw [List.mem_cons, not_or] at hline
      refine ⟨[c], rest, [], texts, rfl, rfl, ?_, ih hrest hline.2 _⟩
      rw [aliasStep, if_neg hc]
      exact ⟨⟨c, beq_self_eq_true c, rfl⟩, rfl⟩

/-- The pattern of an alias matches a specifier of one line for which there are texts. -/
theorem isSome_tryMatch_of_fills (h : Fills pattern texts specifier) (hline : '\n' ∉ specifier)
    (left : List Char) (groups : List (ℕ × ℕ)) :
    ((aliasTail pattern).tryMatch (.between left specifier groups) some).isSome := by
  have hsome := @Pattern.isSome_tryMatch _ _ _ _ _ _ groups some (accepts_of_fills h hline left)
    fun _ => rfl
  rwa [List.append_nil] at hsome

/-- Texts for the stars of an alias make it a specifier and are as long as they can be, from the first on. -/
structure FillsLongest (pattern : List Char) (texts : List (List Char)) (specifier : List Char) :
    Prop where
  fills : Fills pattern texts specifier
  longest : ∀ texts', Fills pattern texts' specifier →
    texts'.map List.length ≤ texts.map List.length

/-- Behind the alias nothing is left. -/
theorem fillsLongest_nil : FillsLongest [] [] [] where
  fills := ⟨rfl, rfl⟩
  longest texts' h := by rw [h.1]

/-- A character that stands for itself leaves no choice. -/
theorem FillsLongest.char (hc : c ≠ '*') (h : FillsLongest pattern texts specifier) :
    FillsLongest (c :: pattern) texts (c :: specifier) where
  fills := (fills_char hc).mpr ⟨specifier, rfl, h.fills⟩
  longest texts' h' := by
    obtain ⟨rest, heq, hrest⟩ := (fills_char hc).mp h'
    cases heq
    exact h.longest texts' hrest

/-- The text for a star is the longest if the alias cannot go on behind any longer one. -/
theorem FillsLongest.star {text : List Char} (h : FillsLongest pattern texts specifier)
    (hlonger : ∀ text' rest, text ++ specifier = text' ++ rest → text.length < text'.length →
      ∀ texts', ¬ Fills pattern texts' rest) :
    FillsLongest ('*' :: pattern) (text :: texts) (text ++ specifier) where
  fills := fills_star.mpr ⟨text, texts, specifier, rfl, rfl, h.fills⟩
  longest texts' h' := by
    obtain ⟨text', others, rest, rfl, heq, hothers⟩ := fills_star.mp h'
    rw [List.map_cons, List.map_cons]
    rcases Nat.lt_trichotomy text'.length text.length with hlt | hlength | hlt
    · exact le_of_lt (List.cons_lt_cons_iff.mpr (.inl hlt))
    · obtain ⟨rfl, rfl⟩ := List.append_inj heq hlength.symm
      exact List.cons_le_cons _ (h.longest others hothers)
    · exact absurd hothers (hlonger text' rest heq hlt others)

/-- A match of the pattern of an alias at a cursor captures the longest texts for the stars of the alias. -/
theorem fillsLongest_of_tryMatch {left rest text : List Char} {groups : List (ℕ × ℕ)} {found : Cursor}
    (htext : left ++ rest = text) (hline : '\n' ∉ rest)
    (h : (aliasTail pattern).tryMatch (.between left rest groups) some = some found) :
    ∃ new, found.groups = groups ++ new ∧
      FillsLongest pattern (new.map (Pattern.between text)) rest := by
  induction pattern generalizing left rest groups with
  | nil =>
    rw [aliasTail, Pattern.tryMatch, Pattern.tryMatch] at h
    split at h
    · next hend =>
      have hrest : rest = [] := by
        refine hend.resolve_right fun hnewline => hline ?_
        rw [show rest = ['\n'] from hnewline]
        exact List.mem_cons_self
      cases h
      exact ⟨[], (List.append_nil _).symm, hrest ▸ fillsLongest_nil⟩
    · cases h
  | cons c pattern ih =>
    rw [aliasTail, Pattern.tryMatch, aliasStep] at h
    split at h
    · next hc =>
      subst hc
      -- The run for the star is cut where the rest of the alias matches and does so at no later cut.
      obtain ⟨run, right, rfl, -, hfound, hlater⟩ := Pattern.longest_of_tryMatch_run h
      have hright : '\n' ∉ right := fun hmem => hline (List.mem_append_right _ hmem)
      obtain ⟨new, hgroups, hlongest⟩ := ih (by rwa [List.append_assoc]) hright hfound
      have hcaptured : Pattern.between text (left.length, (left ++ run).length) = run := by
        rw [← htext, Pattern.between_append]
      refine ⟨(left.length, (left ++ run).length) :: new, ?_, ?_⟩
      · rw [hgroups]
        exact List.append_assoc _ [_] new
      · rw [List.map_cons, hcaptured]
        refine hlongest.star fun first after heq hlt others hothers => ?_
        rw [heq, List.mem_append, not_or] at hline
        have hfirst : ∀ d ∈ first, (d != '\n') = true := fun d hd =>
          bne_iff_ne.mpr fun h => hline.1 (h ▸ hd)
        have hsome := isSome_tryMatch_of_fills hothers hline.2 (left ++ first)
          (groups ++ [(left.length, (left ++ first).length)])
        rw [hlater first after heq hfirst hlt] at hsome
        cases hsome
    · next hc =>
      obtain ⟨d, right, rfl, hd, hfound⟩ := Pattern.exists_of_tryMatch_one h
      obtain rfl := eq_of_beq hd
      have hright : '\n' ∉ right := fun hmem => hline (List.mem_cons_of_mem _ hmem)
      obtain ⟨new, hgroups, hlongest⟩ := ih (by rwa [List.append_assoc]) hright hfound
      exact ⟨new, hgroups, hlongest.char hc⟩

/-- The texts that an alias finds are those of the match of its pattern. -/
theorem aliasMatch?_eq (pattern specifier : List Char) : aliasMatch? pattern specifier =
    ((aliasTail pattern).tryMatch (.between [] specifier []) some).map fun found =>
      found.groups.map (Pattern.between specifier) := by
  have hstart : (Pattern.seq .textStart (aliasTail pattern)).matchStart specifier =
      ((aliasTail pattern).tryMatch (.between [] specifier []) some).map fun found =>
        ⟨0, found.position, found.groups.map (Pattern.between specifier)⟩ := rfl
  rw [aliasMatch?, aliasPattern?_eq]
  change ((Pattern.seq .textStart (aliasTail pattern)).matchStart specifier).bind _ = _
  rw [hstart]
  cases (aliasTail pattern).tryMatch (.between [] specifier []) some <;> rfl

/-- Of all texts that make an alias a specifier of one line it finds the longest. -/
theorem aliasMatch?_eq_some_iff (hline : '\n' ∉ specifier) :
    aliasMatch? pattern specifier = some texts ↔ FillsLongest pattern texts specifier := by
  have hfound {texts : List (List Char)} (h : aliasMatch? pattern specifier = some texts) :
      FillsLongest pattern texts specifier := by
    rw [aliasMatch?_eq] at h
    obtain ⟨found, hfound, rfl⟩ := Option.map_eq_some_iff.mp h
    obtain ⟨new, hgroups, hlongest⟩ := fillsLongest_of_tryMatch rfl hline hfound
    rwa [show found.groups = new from hgroups]
  refine ⟨hfound, fun h => ?_⟩
  have hsome : (aliasMatch? pattern specifier).isSome := by
    rw [aliasMatch?_eq, Option.isSome_map]
    exact isSome_tryMatch_of_fills h.fills hline [] []
  obtain ⟨texts', heq⟩ := Option.isSome_iff_exists.mp hsome
  have h' := hfound heq
  have hlengths := le_antisymm (h'.longest texts h.fills) (h.longest texts' h'.fills)
  rw [heq, h.fills.eq_of_lengths h'.fills hlengths]

/-- An alias matches a specifier of one line if texts for its stars make it that specifier. -/
theorem isSome_aliasMatch?_iff (hline : '\n' ∉ specifier) :
    (aliasMatch? pattern specifier).isSome ↔ ∃ texts, Fills pattern texts specifier := by
  constructor
  · intro h
    obtain ⟨texts, htexts⟩ := Option.isSome_iff_exists.mp h
    exact ⟨texts, ((aliasMatch?_eq_some_iff hline).mp htexts).fills⟩
  · rintro ⟨texts, hfills⟩
    rw [aliasMatch?_eq, Option.isSome_map]
    exact isSome_tryMatch_of_fills hfills hline [] []

end Filling

/-- Texts for the stars between the parts of an alias, with which the alias is a specifier. -/
structure FillsParts (first : List Char) (others : List (List Char)) (texts : List (List Char))
    (specifier : List Char) : Prop where
  length_eq : texts.length = others.length
  specifier_eq : specifier = first ++ (List.zipWith (· ++ ·) texts others).flatten

section Parts

variable {first part pattern rest specifier text : List Char} {others texts : List (List Char)}

/-- A part without a star is found as it is. -/
theorem fills_append (hpart : '*' ∉ part) : Fills (part ++ pattern) texts specifier ↔
    ∃ rest, specifier = part ++ rest ∧ Fills pattern texts rest := by
  induction part generalizing specifier with
  | nil => simp
  | cons c part ih =>
    rw [List.mem_cons, not_or] at hpart
    rw [List.cons_append, fills_char (Ne.symm hpart.1)]
    constructor
    · rintro ⟨_, rfl, h⟩
      obtain ⟨rest, rfl, hrest⟩ := (ih hpart.2).mp h
      exact ⟨rest, rfl, hrest⟩
    · rintro ⟨rest, rfl, h⟩
      exact ⟨part ++ rest, rfl, (ih hpart.2).mpr ⟨rest, rfl, h⟩⟩

/-- The first star of an alias stands between its first part and the others. -/
theorem fillsParts_cons {second : List Char} : FillsParts first (second :: others) texts specifier ↔
    ∃ text following rest, texts = text :: following ∧ specifier = first ++ (text ++ rest) ∧
      FillsParts second others following rest := by
  constructor
  · rintro ⟨hlength, rfl⟩
    cases texts with
    | nil => cases hlength
    | cons text following =>
      refine ⟨text, following, _, rfl, ?_, Nat.succ.inj hlength, rfl⟩
      rw [List.zipWith_cons_cons, List.flatten_cons, List.append_assoc]
  · rintro ⟨text, following, rest, rfl, rfl, hlength, rfl⟩
    refine ⟨congrArg Nat.succ hlength, ?_⟩
    rw [List.zipWith_cons_cons, List.flatten_cons, List.append_assoc text]

/-- An alias is filled part by part. -/
theorem fills_intercalate (hparts : ∀ part ∈ first :: others, '*' ∉ part) :
    Fills (['*'].intercalate (first :: others)) texts specifier ↔
      FillsParts first others texts specifier := by
  induction others generalizing first texts specifier with
  | nil =>
    have hend := @fills_append first [] specifier texts (hparts first List.mem_cons_self)
    rw [List.append_nil] at hend
    rw [List.intercalate_singleton, hend]
    constructor
    · rintro ⟨_, rfl, rfl, rfl⟩
      exact ⟨rfl, rfl⟩
    · rintro ⟨hlength, rfl⟩
      obtain rfl := List.length_eq_zero_iff.mp hlength
      exact ⟨[], rfl, rfl, rfl⟩
  | cons second others ih =>
    obtain ⟨hfirst, hothers⟩ := List.forall_mem_cons.mp hparts
    rw [List.intercalate_cons_cons, List.append_assoc, fills_append hfirst, List.singleton_append,
      fillsParts_cons]
    constructor
    · rintro ⟨_, rfl, h⟩
      obtain ⟨text, following, rest, rfl, rfl, hrest⟩ := fills_star.mp h
      exact ⟨text, following, rest, rfl, rfl, (ih hothers).mp hrest⟩
    · rintro ⟨text, following, rest, rfl, rfl, hrest⟩
      exact ⟨text ++ rest, rfl, fills_star.mpr ⟨text, following, rest, rfl, rfl, (ih hothers).mpr hrest⟩⟩

/-- Between two parts there is only one text for the star. -/
theorem fillsParts_single {last : List Char} : FillsParts first [last] texts specifier ↔
    ∃ text, texts = [text] ∧ specifier = first ++ text ++ last := by
  rw [fillsParts_cons]
  constructor
  · rintro ⟨text, following, rest, rfl, rfl, hlength, rfl⟩
    obtain rfl := List.length_eq_zero_iff.mp hlength
    exact ⟨text, rfl, by simp⟩
  · rintro ⟨text, rfl, rfl⟩
    exact ⟨text, [], last, rfl, by simp, rfl, by simp⟩

/-- A text takes the place of the only star of an alias. -/
theorem substituteStar_append (hfirst : '*' ∉ first) :
    substituteStar text (first ++ '*' :: rest) = first ++ text ++ rest := by
  induction first with
  | nil => rfl
  | cons c first ih =>
    rw [List.mem_cons, not_or] at hfirst
    rw [List.cons_append, substituteStar, if_neg (Ne.symm hfirst.1), ih hfirst.2]
    rfl

/-- An alias, cut into its parts at its stars, matches a specifier of one line if texts in the place of the
stars make it that specifier. It finds the texts that are as long as they can be, the first before the second
and so on. The text for the only star of an alias is as long as the specifier without the parts and, in the
place of the star, gives the specifier. -/
theorem aliasMatch?_parts (hpattern : Text.splitAt '*' pattern = first :: others)
    (hline : '\n' ∉ specifier) :
    ((aliasMatch? pattern specifier).isSome ↔ ∃ texts, FillsParts first others texts specifier) ∧
    (∀ texts, aliasMatch? pattern specifier = some texts ↔
      FillsParts first others texts specifier ∧
        ∀ texts', FillsParts first others texts' specifier →
          texts'.map List.length ≤ texts.map List.length) ∧
    ∀ last, others = [last] → ∀ texts, aliasMatch? pattern specifier = some texts →
      ∃ text, texts = [text] ∧ (∀ texts', FillsParts first others texts' specifier → texts' = [text]) ∧
        first.length + text.length + last.length = specifier.length ∧
        substituteStar text pattern = specifier := by
  have hparts : ∀ part ∈ first :: others, '*' ∉ part := fun part hpart =>
    Text.notMem_of_mem_splitAt (hpattern ▸ hpart)
  have hjoined : ['*'].intercalate (first :: others) = pattern := by
    rw [← hpattern, Text.intercalate_splitAt]
  have hfills {texts : List (List Char)} :
      Fills pattern texts specifier ↔ FillsParts first others texts specifier := by
    rw [← hjoined, fills_intercalate hparts]
  refine ⟨?_, fun texts => ?_, ?_⟩
  · rw [isSome_aliasMatch?_iff hline]
    exact exists_congr fun texts => hfills
  · rw [aliasMatch?_eq_some_iff hline]
    constructor
    · rintro ⟨hmade, hlongest⟩
      exact ⟨hfills.mp hmade, fun texts' h => hlongest texts' (hfills.mpr h)⟩
    · rintro ⟨hmade, hlongest⟩
      exact ⟨hfills.mpr hmade, fun texts' h => hlongest texts' (hfills.mp h)⟩
  · rintro last rfl texts hmatch
    have hmade := hfills.mp ((aliasMatch?_eq_some_iff hline).mp hmatch).fills
    obtain ⟨text, rfl, hspecifier⟩ := fillsParts_single.mp hmade
    refine ⟨text, rfl, fun texts' h => ?_, ?_, ?_⟩
    · obtain ⟨text', rfl, hspecifier'⟩ := fillsParts_single.mp h
      have hfront := List.append_cancel_right (hspecifier'.symm.trans hspecifier)
      rw [List.append_cancel_left hfront]
    · rw [hspecifier, List.length_append, List.length_append]
    · rw [← hjoined, List.intercalate_cons_cons, List.intercalate_singleton, List.append_assoc,
        List.singleton_append, substituteStar_append (hparts first List.mem_cons_self), hspecifier]

/-- A star behind a backslash, and a dot between two stars that the specifier has twice: the first text
reaches up to the last dot. -/
theorem aliasMatch?_parts_dots :
    let pattern := "a\\*.*b".toList
    let first := "a\\".toList
    let others := [".".toList, "b".toList]
    let specifier := "a\\x.y.zb".toList
    Text.splitAt '*' pattern = first :: others ∧ '\n' ∉ specifier ∧
      FillsParts first others ["x".toList, "y.z".toList] specifier ∧
      FillsParts first others ["x.y".toList, "z".toList] specifier ∧
      ∀ texts, FillsParts first others texts specifier → texts.map List.length ≤ [3, 1] := by
  intro pattern first others specifier
  have hpattern : Text.splitAt '*' pattern = first :: others := by decide
  have hline : '\n' ∉ specifier := by decide
  have hmatch : aliasMatch? pattern specifier = some ["x.y".toList, "z".toList] := by decide +kernel
  obtain ⟨hmade, hlongest⟩ := ((aliasMatch?_parts hpattern hline).2.1 _).mp hmatch
  exact ⟨hpattern, hline, ⟨rfl, by decide⟩, hmade, hlongest⟩

end Parts

end ImportAtlas
