import ImportAtlas.Proofs.Glob.Segments
import ImportAtlas.Proofs.Glob.Selecting
import ImportAtlas.Proofs.Text.Splitting

/-!
# Globs that select what is below a selected folder

A folder is shown to the globs with a slash at its end. Where a glob without brackets is found in such a
text, it is found in every longer one: most of the patterns do not look at what stands behind them, and the
end of the text, the one place to which they do look, can be the end of a name only if that name is empty.
Then the name consists of stars, which take the next name of the longer text as well.
-/

namespace ImportAtlas.Glob

open Pattern

/-- A text that ends in a slash, or is empty: what is shown of a folder. -/
def EndsFolder (text : List Char) : Prop := ∀ c ∈ text.getLast?, c = '/'

/-- Wherever a pattern accepts a stretch of what is shown of a folder, it accepts one that begins there if
the text is longer. -/
def GoesOn (p : Pattern) : Prop :=
  ∀ (left s right : List Char) (gs : List (List Char)) (more : List Char),
    p.Accepts left s right gs → EndsFolder (left ++ (s ++ right)) →
      ∃ s' right' gs', s' ++ right' = s ++ (right ++ more) ∧ p.Accepts left s' right' gs'

section GoesOn

variable {p first second own : Pattern}

/-- A pattern that does not look ahead goes on. -/
theorem goesOn_of_looksAhead (h : p.looksAhead = false) : GoesOn p :=
  fun _ s right gs more haccepts _ =>
    ⟨s, right ++ more, gs, rfl, accepts_congr (fun _ => rfl) (by simp [h]) haccepts⟩

/-- A pattern goes on if what follows in it does, and what comes first does not look ahead. -/
theorem GoesOn.seq (hfirst : first.looksAhead = false) (hsecond : GoesOn second) :
    GoesOn (.seq first second) := by
  rintro left - right - more ⟨s, t, gs, hs, rfl, rfl, hbefore, hbehind⟩ hends
  obtain ⟨t', right', hs', heq, hbehind⟩ := hsecond _ _ _ _ more hbehind (by simpa using hends)
  have hbefore : first.Accepts left s (t' ++ right') gs :=
    accepts_congr (fun _ => rfl) (by simp [hfirst]) hbefore
  exact ⟨s ++ t', right', gs ++ hs', by rw [List.append_assoc, heq, List.append_assoc],
    s, t', gs, hs', rfl, rfl, hbefore, hbehind⟩

/-- Nothing more behind it, a pattern goes on as before. -/
theorem GoesOn.seq_empty (h : GoesOn p) : GoesOn (.seq p .empty) := by
  intro left s right gs more haccepts hends
  obtain ⟨s', right', gs', heq, haccepts⟩ := h left s right gs more (accepts_seq_empty.mp haccepts) hends
  exact ⟨s', right', gs', heq, accepts_seq_empty.mpr haccepts⟩

/-- What ends in a folder and not in a slash is nothing. -/
theorem EndsFolder.eq_nil {before name : List Char} (h : EndsFolder (before ++ name))
    (hname : '/' ∉ name) : name = [] := by
  cases hlast : name.getLast? with
  | none => exact List.getLast?_eq_none_iff.mp hlast
  | some c =>
    have hc := h c (by rw [List.getLast?_append, hlast]; rfl)
    exact absurd (hc ▸ List.mem_of_getLast? hlast) hname

/-- A name at the end of a glob goes on. -/
theorem goesOn_name (hown : IsNamePattern own) : GoesOn (.all [own, nameEnd, .empty]) := by
  intro left s right gs more h hends
  obtain ⟨name, tail, inner, marks, rfl, rfl, hname, htail⟩ := accepts_name_nameEnd.mp h
  rcases htail with ⟨rfl, rfl⟩ | ⟨rfl, rfl, hright⟩
  · exact ⟨name ++ ['/'], right ++ more, _, by rw [List.append_assoc], accepts_name_nameEnd.mpr
      ⟨name, ['/'], inner, _, rfl, rfl, hown.accepts_congr hname, .inl ⟨rfl, rfl⟩⟩⟩
  · have hright : right = [] := by
      refine hright.resolve_right fun hnewline => ?_
      have hlast := hends '\n' (by simp [hnewline, ← List.append_assoc])
      exact absurd hlast (by decide)
    subst hright
    rw [List.append_nil, List.append_nil] at hends
    obtain rfl := hends.eq_nil (hown.notMem hname)
    -- The pattern accepts the empty name, so it accepts the next one of the longer text.
    obtain ⟨next, rest, rfl, hnext, hrest⟩ := exists_name more
    obtain ⟨inner, hinner⟩ := @IsNamePattern.of_nil _ hown _ _ left next rest _ hname hnext
    rcases hrest with rfl | ⟨rest, rfl⟩
    · exact ⟨next, [], _, rfl, accepts_name_nameEnd.mpr
        ⟨next, [], inner, _, by simp, rfl, hinner, .inr ⟨rfl, rfl, .inl rfl⟩⟩⟩
    · exact ⟨next ++ ['/'], rest, _, by simp, accepts_name_nameEnd.mpr
        ⟨next, ['/'], inner, _, rfl, rfl, hinner, .inl ⟨rfl, rfl⟩⟩⟩

/-- A pattern that goes on and is found in what is shown of a folder is found in every longer text. -/
theorem GoesOn.isSome_search (h : GoesOn p) {text : List Char} (hends : EndsFolder text)
    (hfound : (p.search text).isSome) (more : List Char) : (p.search (text ++ more)).isSome := by
  obtain ⟨left, s, right, gs, rfl, haccepts⟩ := isSome_search_iff.mp hfound
  obtain ⟨s', right', gs', heq, haccepts⟩ := h _ _ _ _ more haccepts hends
  refine isSome_search_iff.mpr ⟨left, s', right', gs', ?_, haccepts⟩
  rw [heq, List.append_assoc, List.append_assoc]

end GoesOn

/-! ## The patterns of globs -/

/-- The last of several segments, unless it is deep, has pieces, all of which stay within one name. -/
def EndsWithinName (segments : List Segment) : Prop :=
  ∀ pieces, segments.getLast? = Option.some (.name pieces) →
    pieces ≠ [] ∧ ∀ piece ∈ pieces, piece.isWithinName

/-- Segments go on that end within one name. -/
theorem goesOn_segmentsPattern {directory first slash : Bool} {segments : List Segment} {p : Pattern}
    (hlast : EndsWithinName segments) (h : segmentsPattern directory first slash segments = .ok p) :
    GoesOn p := by
  induction segments generalizing first slash p with
  | nil =>
    rw [segmentsPattern, Except.ok.injEq] at h
    have hp : p = .empty := h.symm
    exact hp ▸ goesOn_of_looksAhead rfl
  | cons segment rest ih =>
    have hrest : EndsWithinName rest := fun pieces hpieces =>
      hlast pieces (by rw [List.getLast?_cons, hpieces]; rfl)
    have hseq {first slash : Bool} {front : Pattern} (hfront : front.looksAhead = false)
        (h : (segmentsPattern directory first slash rest).map (Pattern.seq front) = .ok p) :
        GoesOn p := by
      obtain ⟨others, hothers, rfl⟩ := exists_of_map_eq_ok h
      exact .seq hfront (ih hrest hothers)
    cases segment with
    | deep =>
      cases first with
      | true => cases rest <;> exact hseq rfl h
      | false =>
        cases rest with
        | nil =>
          cases h
          cases directory <;> exact goesOn_of_looksAhead rfl
        | cons next rest => exact hseq rfl h
    | name pieces =>
      obtain ⟨own, others, hown, hothers, rfl⟩ := exists_of_segmentsPattern_name h
      refine .seq (by cases first <;> rfl) (.seq (by cases slash <;> rfl) ?_)
      cases rest with
      | nil =>
        obtain ⟨hne, hpieces⟩ := hlast pieces rfl
        obtain rfl : others = .empty := by cases hothers; rfl
        exact goesOn_name (isNamePattern_namePattern hne hpieces hown)
      | cons next rest =>
        exact .seq (looks_namePattern hown).2 (.seq rfl (ih hrest hothers).seq_empty)

/-- The segments are read one by one. -/
theorem forall₂_readSegments {texts : List (List Char)} {segments : List Segment}
    (h : readSegments texts = .ok segments) :
    List.Forall₂ (fun text segment => Segment.read text = .ok segment) texts segments := by
  induction texts generalizing segments with
  | nil =>
    cases h
    exact .nil
  | cons text texts ih =>
    rw [readSegments] at h
    cases hread : Segment.read text with
    | noOperation | invalid =>
      rw [hread] at h
      cases h
    | ok segment =>
      rw [hread] at h
      obtain ⟨others, hothers, rfl⟩ := Reading.exists_of_cons_eq_ok h
      exact .cons hread (ih hothers)

/-- The last of the segments that are read is that of the last text. -/
theorem exists_of_getLast?_readSegments {texts : List (List Char)} {segments : List Segment}
    {last : Segment} (h : readSegments texts = .ok segments)
    (hlast : segments.getLast? = Option.some last) :
    ∃ text, texts.getLast? = Option.some text ∧ Segment.read text = .ok last := by
  have hread := forall₂_readSegments h
  clear h
  induction hread with
  | nil => cases hlast
  | cons hread hrest ih =>
    cases hrest with
    | nil =>
      cases hlast
      exact ⟨_, rfl, hread⟩
    | cons =>
      rw [List.getLast?_cons_cons] at hlast ⊢
      exact ih hlast

/-- Taking neighbouring double stars together leaves the last segment. -/
theorem getLast?_collapseDeep (segments : List (List Char)) :
    (collapseDeep segments).getLast? = segments.getLast? := by
  fun_induction collapseDeep segments with
  | case1 a b rest h ih => rw [ih, List.getLast?_cons_cons]
  | case2 a b rest h ih => rw [List.getLast?_cons, ih, List.getLast?_cons_cons, List.getLast?_cons]; rfl
  | case3 => rfl

/-- The last segment in the normal form of a glob is a double star or a part of the glob that is not
empty. -/
theorem mem_of_getLast?_normalSegments {texts : List (List Char)} {last : List Char}
    (h : (normalSegments texts).getLast? = Option.some last) :
    last = ['*', '*'] ∨ last ≠ [] ∧ last ∈ texts := by
  unfold normalSegments at h
  extract_lets anchored closed at h
  have hanchored : ∀ s ∈ anchored, s = ['*', '*'] ∨ s ∈ texts := by
    intro s hs
    dsimp only [anchored] at hs
    split at hs
    · exact .inr (List.mem_cons_of_mem _ hs)
    · split at hs
      · exact .inr hs
      · exact List.mem_cons.mp hs
    · split at hs
      · exact .inr hs
      · exact List.mem_cons.mp hs
    · exact .inr hs
  rw [getLast?_collapseDeep] at h
  dsimp only [closed] at h
  split at h
  · rw [List.getLast?_append] at h
    exact .inl (Option.some.inj h).symm
  · next hclosed =>
    exact (hanchored last (List.mem_of_getLast? h)).imp_right fun hmem =>
      ⟨fun hnil => hclosed (hnil ▸ h), hmem⟩

/-- What a segment that is a name is read from. -/
theorem readSegment_of_read {text : List Char} {pieces : List Piece}
    (h : Segment.read text = .ok (.name pieces)) :
    text ≠ ['*', '*'] ∧ readSegment (text.length + 1) text = .ok pieces := by
  rw [Segment.read] at h
  split at h
  · cases h
  · next hdeep =>
    split at h
    · next hread =>
      cases h
      exact ⟨hdeep, hread⟩
    · cases h
    · cases h

/-- The pattern of a whole glob goes on if its segments end within one name. -/
theorem goesOn_wholePattern {directory : Bool} {segments : List Segment} {p : Pattern}
    (hlast : EndsWithinName segments) (h : wholePattern directory segments = .ok p) : GoesOn p := by
  rw [wholePattern.eq_def] at h
  split at h
  · cases h
    cases directory <;> exact goesOn_of_looksAhead rfl
  · cases h
    exact goesOn_of_looksAhead rfl
  · cases h
    cases directory <;> exact goesOn_of_looksAhead rfl
  · exact goesOn_segmentsPattern hlast h

/-- The segments of a glob text without brackets end within one name. -/
theorem endsWithinName_of_readSegments {text : List Char} {segments : List Segment} (hbracket : '[' ∉ text)
    (h : readSegments (normalSegments (Text.splitAt '/' text)) = .ok segments) :
    EndsWithinName segments := by
  intro pieces hlast
  obtain ⟨last, hlast, hread⟩ := exists_of_getLast?_readSegments h hlast
  obtain ⟨hdeep, hread⟩ := readSegment_of_read hread
  obtain ⟨hne, hmem⟩ := (mem_of_getLast?_normalSegments hlast).resolve_left hdeep
  have hslash : '/' ∉ last := Text.notMem_of_mem_splitAt hmem
  have hbracket : '[' ∉ last := fun hin => hbracket (Text.mem_of_mem_splitAt hmem hin)
  exact ⟨ne_nil_of_readSegment (Nat.succ_pos _) hne hread,
    isWithinName_of_readSegment hslash hbracket hread⟩

/-- A glob text that takes nothing out again and holds no bracket. -/
def IsPlain (text : List Char) : Prop := text.head? ≠ Option.some '!' ∧ '[' ∉ text

/-- What a plain glob text comes to selects, and goes on. -/
theorem goesOn_compile {text : List Char} {g : Compiled} (htext : IsPlain text)
    (h : compile text = .ok (Option.some g)) : g.negated = false ∧ GoesOn g.pattern := by
  have hbracket : '[' ∉ trimEnd text := fun hin => htext.2 ((trimEnd_isPrefix text).subset hin)
  rw [compile] at h
  dsimp only at h
  have hnegated : ((trimEnd text).head? == Option.some '!') = false :=
    beq_false_of_ne fun hhead => htext.1 (head?_of_head?_trimEnd hhead)
  rw [hnegated] at h
  simp only [Bool.false_eq_true, if_false] at h
  split at h
  · cases h
  · split at h
    · cases h
    · split at h
      · cases h
      · cases h
      · next segments hread =>
        obtain ⟨p, hwhole, hg⟩ := exists_of_map_eq_ok h
        cases hg
        exact ⟨rfl, goesOn_wholePattern (endsWithinName_of_readSegments hbracket hread) hwhole⟩

/-! ## Lists of globs -/

/-- A name of two characters or more without the mark of the root. -/
theorem relativeName_cons_cons (c d : Char) (text : List Char) : relativeName (c :: d :: text) =
    if c = '/' then d :: text else if c = '.' ∧ d = '/' then text else c :: d :: text := by
  split_ifs with hc h
  · rw [hc]
    rfl
  · rw [h.1, h.2]
    rfl
  · unfold relativeName
    split
    · next heq => exact absurd (List.cons.inj heq).1 hc
    · next heq => exact absurd ⟨(List.cons.inj heq).1, (List.cons.inj (List.cons.inj heq).2).1⟩ h
    · rfl

/-- Without the mark of the root, a path goes on as before behind a folder. -/
theorem relativeName_append (folder rest : List Char) :
    relativeName (folder ++ '/' :: rest) = relativeName (folder ++ ['/']) ++ rest := by
  cases folder with
  | nil => rfl
  | cons c folder =>
    cases folder with
    | nil =>
      simp only [List.cons_append, List.nil_append, relativeName_cons_cons]
      split_ifs <;> rfl
    | cons d folder =>
      simp only [List.cons_append, relativeName_cons_cons]
      split_ifs <;> simp

/-- Only the beginning of a name can be the mark of the root. -/
theorem relativeName_suffix (name : List Char) : relativeName name <:+ name := by
  unfold relativeName
  split
  · exact List.suffix_cons _ _
  · exact (List.suffix_cons _ _).trans (List.suffix_cons _ _)
  · exact List.suffix_refl _

/-- What is shown of a folder stays so without the mark of the root. -/
theorem endsFolder_relativeName (folder : List Char) : EndsFolder (relativeName (folder ++ ['/'])) := by
  obtain ⟨mark, hmark⟩ := relativeName_suffix (folder ++ ['/'])
  intro c hc
  have hlast : (folder ++ ['/']).getLast? = Option.some c := by
    rw [← hmark, List.getLast?_append, hc]
    rfl
  rw [List.getLast?_concat, Option.some.injEq] at hlast
  exact hlast.symm

/-- Plain globs that select a folder select everything below it. -/
theorem matchesAny_below {patterns : List String}
    (hplain : ∀ p ∈ patterns, ∀ text ∈ expandBraces p.toList, IsPlain text) {folder : List Char}
    (h : matchesAny patterns (folder ++ ['/']) = .ok true) (rest : List Char) :
    matchesAny patterns (folder ++ '/' :: rest) = .ok true := by
  obtain ⟨set, hset, hselects⟩ := GlobSet.exists_of_matchesAny h
  have hglobs : ∀ g ∈ set.globs, g.negated = false ∧ GoesOn g.pattern := fun g hg => by
    obtain ⟨p, hp, text, htext, hcompile⟩ := (GlobSet.mem_globs_ofPatterns hset).mp hg
    exact goesOn_compile (hplain p hp text htext) hcompile
  have hpositive : ∀ g ∈ set.globs, g.negated = false := fun g hg => (hglobs g hg).1
  obtain ⟨g, hg, hfound⟩ := (GlobSet.selects_iff hpositive).mp hselects
  rw [GlobSet.matchesAny_eq hset, Except.ok.injEq, GlobSet.selects_iff hpositive, relativeName_append]
  exact ⟨g, hg, (hglobs g hg).2.isSome_search (endsFolder_relativeName folder) hfound rest⟩

end ImportAtlas.Glob
