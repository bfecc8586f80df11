import ImportAtlas.Proofs.Import.Anchored

/-!
# Rules for calls

What the rules for calls say of the text they match. Each asks for the name of a function, a
parenthesis and an argument. Comments and blanks may stand before the parenthesis; where the text on
the line of the parenthesis leaves no room for them, the name stands right before it.
-/

namespace ImportAtlas

open Pattern

namespace ImportRule

/-- The names of the functions that a kind of call asks for. -/
def callees : ImportKind → List String
  | .dynamicExpression => ["import", "import.source"]
  | .dynamicSource => ["import.source"]
  | .dynamicImport => ["import"]
  | .requireCall => ["require"]
  | _ => []

/-- What a kind of call asks for behind its opening parenthesis. -/
def argument : ImportKind → List Pattern
  | .dynamicExpression => [blanks, comments, computedArgument]
  | .requireCall => [blanks, comments, quoted, blanks, comments, mark ')']
  | _ => [blanks, comments, quoted]

/-- A text that is no code at its end: it ends with a blank, or with a comment. -/
def EndsHidden (s : List Char) : Prop :=
  (∃ c ∈ s.getLast?, Text.isBlank c) ∨ ∃ before after, s = before ++ '/' :: after ∧ '\n' ∉ after

/-- Blanks end hidden. -/
theorem endsHidden_of_isBlank {s : List Char} (hne : s ≠ []) (hs : ∀ c ∈ s, Text.isBlank c) :
    EndsHidden s :=
  .inl ⟨s.getLast hne, List.getLast?_eq_some_getLast hne, hs _ (List.getLast_mem hne)⟩

/-- What ends hidden does so behind any text. -/
theorem EndsHidden.append_left {t : List Char} (h : EndsHidden t) (s : List Char) :
    EndsHidden (s ++ t) := by
  rcases h with ⟨c, hc, hblank⟩ | ⟨before, after, rfl, hafter⟩
  · refine .inl ⟨c, ?_, hblank⟩
    rw [List.getLast?_append, Option.mem_def.mp hc]
    rfl
  · exact .inr ⟨s ++ before, after, by rw [List.append_assoc], hafter⟩

/-- Behind what ends hidden, blanks end hidden. -/
theorem EndsHidden.append_blanks {s t : List Char} (h : EndsHidden s)
    (ht : ∀ c ∈ t, Text.isBlank c) : EndsHidden (s ++ t) := by
  cases hlast : t.getLast? with
  | none => rwa [List.getLast?_eq_none_iff.mp hlast, List.append_nil]
  | some c =>
    have hblank : EndsHidden t := .inl ⟨c, hlast, ht c (List.mem_of_getLast? hlast)⟩
    exact hblank.append_left s

section Comments

variable {left s right : List Char} {gs : List (List Char)}

/-- A fixed character and what patterns accept behind it. -/
theorem accepts_all_mark {ps : List Pattern} {c : Char} :
    (all (mark c :: ps)).Accepts left s right gs ↔
      ∃ t, s = c :: t ∧ (all ps).Accepts (left ++ [c]) t right gs := by
  constructor
  · rintro ⟨_, t, _, gs, rfl, rfl, ⟨⟨d, hd, rfl⟩, rfl⟩, h⟩
    obtain rfl := beq_iff_eq.mp hd
    exact ⟨t, rfl, h⟩
  · rintro ⟨t, rfl, h⟩
    exact ⟨[c], t, [], gs, rfl, rfl, ⟨⟨c, beq_self_eq_true c, rfl⟩, rfl⟩, h⟩

/-- A comment between slash and star. -/
theorem accepts_blockComment : blockComment.Accepts left s right gs ↔
    ∃ body, s = '/' :: '*' :: (body ++ ['*', '/']) ∧ (∀ c ∈ body, c != '*') ∧ gs = [] := by
  constructor
  · intro h
    obtain ⟨t, rfl, hrest⟩ := accepts_all_mark.mp h
    obtain ⟨t, rfl, body, u, _, gs, rfl, rfl, ⟨hbody, rfl⟩, hclose⟩ := accepts_all_mark.mp hrest
    obtain ⟨u, rfl, hslash⟩ := accepts_all_mark.mp hclose
    obtain ⟨u, rfl, rfl, rfl⟩ := accepts_all_mark.mp hslash
    exact ⟨body, rfl, hbody, rfl⟩
  · rintro ⟨body, rfl, hbody, rfl⟩
    refine accepts_all_mark.mpr ⟨_, rfl, accepts_all_mark.mpr ⟨_, rfl, ?_⟩⟩
    exact ⟨body, ['*', '/'], [], [], rfl, rfl, ⟨hbody, rfl⟩,
      accepts_all_mark.mpr ⟨_, rfl, accepts_all_mark.mpr ⟨_, rfl, rfl, rfl⟩⟩⟩

/-- A comment that runs on along its line. -/
theorem accepts_lineComment : lineComment.Accepts left s right gs ↔
    ∃ body, s = '/' :: '/' :: body ∧ (∀ c ∈ body, c != '\n') ∧ gs = [] := by
  constructor
  · intro h
    obtain ⟨t, rfl, hrest⟩ := accepts_all_mark.mp h
    obtain ⟨t, rfl, body, u, _, gs, rfl, rfl, ⟨hbody, rfl⟩, rfl, rfl⟩ := accepts_all_mark.mp hrest
    exact ⟨body, by rw [List.append_nil], hbody, rfl⟩
  · rintro ⟨body, rfl, hbody, rfl⟩
    refine accepts_all_mark.mpr ⟨_, rfl, accepts_all_mark.mpr ⟨_, rfl, ?_⟩⟩
    exact ⟨body, [], [], [], by rw [List.append_nil], rfl, ⟨hbody, rfl⟩, rfl, rfl⟩

/-- A comment ends hidden and begins with a slash. -/
theorem endsHidden_comment (h : (Pattern.alt blockComment lineComment).Accepts left s right gs) :
    EndsHidden s ∧ beginsWith (· == '/') s := by
  rcases h with h | h
  · obtain ⟨body, rfl, -, -⟩ := accepts_blockComment.mp h
    exact ⟨.inr ⟨'/' :: '*' :: (body ++ ['*']), [], by simp, by simp⟩, rfl⟩
  · obtain ⟨body, rfl, hbody, -⟩ := accepts_lineComment.mp h
    exact ⟨.inr ⟨['/'], body, rfl, fun hmem => by simpa using hbody _ hmem⟩, rfl⟩

/-- Comments with the blanks behind them end hidden and begin with a slash, if there are any. -/
theorem endsHidden_comments (h : comments.Accepts left s right gs) (hne : s ≠ []) :
    EndsHidden s ∧ beginsWith (· == '/') s := by
  have hrounds : Rounds (Pattern.seq (.alt blockComment lineComment) blanks).Accepts left s right gs := h
  induction hrounds with
  | nil => exact absurd rfl hne
  | @cons left s t right gs hs _ hround hrounds ih =>
    obtain ⟨u, v, gs, hs, rfl, rfl, hcomment, hblanks, -⟩ := hround
    obtain ⟨hends, hbegins⟩ := endsHidden_comment hcomment
    have hbegins' := beginsWith_append (beginsWith_append hbegins v) t
    by_cases ht : t = []
    · rw [ht, List.append_nil] at hbegins' ⊢
      exact ⟨hends.append_blanks hblanks, hbegins'⟩
    · exact ⟨(ih hrounds ht).1.append_left _, hbegins'⟩

/-- Blanks and comments end hidden, if there are any. -/
theorem endsHidden_of_accepts (h : (all [blanks, comments]).Accepts left s right gs) (hne : s ≠ []) :
    EndsHidden s := by
  obtain ⟨s, t, gs, hs, rfl, rfl, ⟨hblanks, -⟩, t, u, gs, hs, rfl, rfl, hcomments, rfl, -⟩ := h
  rw [List.append_nil] at hne ⊢
  by_cases ht : t = []
  · rw [ht, List.append_nil] at hne ⊢
    exact endsHidden_of_isBlank hne hblanks
  · exact (endsHidden_comments hcomments ht).1.append_left s

/-- Before a character that is neither a blank nor a slash, no blanks and no comments stand. -/
theorem accepts_of_blanks_comments {ps : List Pattern} {c : Char} {rest : List Char}
    (hblank : Text.isBlank c = false) (hslash : c ≠ '/') (htext : s ++ right = c :: rest)
    (h : (all (blanks :: comments :: ps)).Accepts left s right gs) :
    (all ps).Accepts left s right gs := by
  obtain ⟨u, s, _, hs, rfl, rfl, ⟨hblanks, rfl⟩, v, s, gs, hs, rfl, rfl, hcomments, h⟩ := h
  have hu : u = [] := by
    cases u with
    | nil => rfl
    | cons d u =>
      obtain ⟨rfl, -⟩ := List.cons.inj htext
      rw [hblanks d List.mem_cons_self] at hblank
      cases hblank
  subst hu
  have hv : v = [] := by
    cases v with
    | nil => rfl
    | cons d v =>
      obtain ⟨rfl, -⟩ := List.cons.inj htext
      exact absurd (beq_iff_eq.mp (endsHidden_comments hcomments (List.cons_ne_nil d v)).2) hslash
  subst hv
  rw [eq_nil_of_isSilent rfl hcomments]
  rwa [List.append_nil, List.append_nil] at h

/-- An opening parenthesis with what may stand on both sides of it. -/
theorem accepts_openCall {ps : List Pattern} (h : (all (openCall :: ps)).Accepts left s right gs) :
    ∃ before after left', s = before ++ '(' :: after ∧
      (∃ l r, (all [blanks, comments]).Accepts l before r []) ∧
        (all (blanks :: comments :: ps)).Accepts left' after right gs := by
  obtain ⟨s, t, gs, hs, rfl, rfl, hopen, hrest⟩ := h
  obtain ⟨before, u, gs, gs', rfl, rfl, hbefore, _, v, _, gs', rfl, rfl, ⟨⟨c, hc, rfl⟩, rfl⟩, hafter⟩ :=
    (@accepts_all_append [blanks, comments] left s (t ++ right) gs [mark '(', blanks, comments]).mp hopen
  obtain rfl := beq_iff_eq.mp hc
  have hgs : gs = [] := eq_nil_of_isSilent rfl hbefore
  subst hgs
  refine ⟨before, v ++ t, left ++ before ++ ['('], by simp, ⟨_, _, hbefore⟩, ?_⟩
  have hsplit : left ++ (before ++ (['('] ++ v)) = left ++ before ++ ['('] ++ v := by simp
  rw [hsplit] at hrest
  exact accepts_all_append.mpr ⟨v, t, gs', hs, rfl, rfl, hafter, hrest⟩

/-- An opening parenthesis before blanks and comments. -/
theorem accepts_openCall_of_argument {ps : List Pattern} {after : List Char}
    (h : (all (blanks :: comments :: ps)).Accepts (left ++ ['(']) after right gs) :
    (all (openCall :: ps)).Accepts left ('(' :: after) right gs := by
  obtain ⟨v, t, gs, hs, rfl, rfl, hafter, hrest⟩ :=
    (@accepts_all_append [blanks, comments] (left ++ ['(']) after right gs ps).mp h
  have hopen : (all [mark '(', blanks, comments]).Accepts left ('(' :: v) (t ++ right) gs :=
    accepts_all_mark.mpr ⟨v, rfl, hafter⟩
  have hnone : (all [blanks, comments]).Accepts left [] ('(' :: v ++ (t ++ right)) [] :=
    ⟨[], [], [], [], rfl, rfl, by simp [blanks, Accepts], [], [], [], [], rfl, rfl, Rounds.nil, rfl, rfl⟩
  refine ⟨'(' :: v, t, gs, hs, rfl, rfl, ?_, by rwa [List.append_assoc] at hrest⟩
  exact accepts_all_append.mpr ⟨[], '(' :: v, [], gs, rfl, rfl, hnone, by rwa [List.append_nil]⟩

end Comments

/-- A rule for calls asks for the name of a function, a parenthesis and an argument. Blanks and
comments may stand before the parenthesis, and nothing else. -/
theorem accepts_call {rule : ImportRule} (h : rule ∈ importRules) (ha : rule.anchored = false)
    {left s right : List Char} {gs : List (List Char)} (hs : rule.pattern.Accepts left s right gs) :
    ∃ callee ∈ callees rule.kind, ∃ before after left', s = callee.toList ++ (before ++ '(' :: after) ∧
      (∃ l r, (all [blanks, comments]).Accepts l before r []) ∧
        (all (argument rule.kind)).Accepts left' after right gs := by
  have hword {w : String} {ps : List Pattern} {kind : ImportKind}
      (hs : (all (wordEdge :: word w :: openCall :: ps)).Accepts left s right gs)
      (hcallee : w ∈ callees kind) (hargument : argument kind = blanks :: comments :: ps) :
      ∃ callee ∈ callees kind, ∃ before after left', s = callee.toList ++ (before ++ '(' :: after) ∧
        (∃ l r, (all [blanks, comments]).Accepts l before r []) ∧
          (all (argument kind)).Accepts left' after right gs := by
    obtain ⟨_, _, _, _, rfl, rfl, ⟨-, rfl, rfl⟩, w', s, gs, hs, rfl, rfl, hw, hopen⟩ := hs
    obtain ⟨rfl, rfl⟩ := accepts_text.mp hw
    obtain ⟨before, after, left', rfl, hbefore, hafter⟩ := accepts_openCall hopen
    exact ⟨w, hcallee, before, after, left', rfl, hbefore, hargument ▸ hafter⟩
  simp only [importRules, List.mem_cons, List.not_mem_nil, or_false] at h
  rcases h with rfl | rfl | rfl | rfl | rfl | rfl | rfl | rfl | rfl | rfl | rfl | rfl | rfl | rfl | rfl
  · cases ha
  · cases ha
  · obtain ⟨_, _, _, _, rfl, rfl, ⟨-, rfl, rfl⟩, w, s, gs, hs, rfl, rfl, hw, v, s, gs', hs', rfl, rfl, hv,
      hopen⟩ := hs
    obtain ⟨rfl, rfl⟩ := accepts_text.mp hw
    obtain ⟨before, after, left', rfl, hbefore, hafter⟩ := accepts_openCall hopen
    rcases hv with hv | ⟨rfl, rfl⟩
    · obtain ⟨rfl, rfl⟩ := accepts_text.mp hv
      exact ⟨"import.source", by simp [callees], before, after, left', by simp, hbefore, hafter⟩
    · exact ⟨"import", by simp [callees], before, after, left', rfl, hbefore, hafter⟩
  · cases ha
  · cases ha
  · cases ha
  · cases ha
  · cases ha
  · cases ha
  · cases ha
  · exact hword hs (by simp [callees]) rfl
  · exact hword hs (by simp [callees]) rfl
  · obtain ⟨_, _, _, _, rfl, rfl, ⟨-, rfl, rfl⟩, w, s, _, hs, rfl, rfl, hw, before, s, _, hs, rfl, rfl,
      ⟨hbefore, rfl⟩, _, after, _, _, rfl, rfl, ⟨⟨c, hc, rfl⟩, rfl⟩, hafter⟩ := hs
    obtain ⟨rfl, rfl⟩ := accepts_text.mp hw
    obtain rfl := beq_iff_eq.mp hc
    have hblanks : (all [blanks, comments]).Accepts [] before [] [] :=
      ⟨before, [], [], [], by simp, rfl, ⟨hbefore, rfl⟩, [], [], [], [], rfl, rfl, Rounds.nil, rfl, rfl⟩
    exact ⟨"require", by simp [callees], before, after, _, rfl, ⟨_, _, hblanks⟩, hafter⟩
  · cases ha
  · cases ha

end ImportRule

end ImportAtlas
