import ImportAtlas.Proofs.Import.WrittenStatements
import ImportAtlas.Proofs.Pattern.Preference

/-!
# Blanks and comments in a call

Blanks and comments may stand between the parenthesis of a call and its argument. The rules read a
comment between slash and star up to its first star, so that they do not get past one that has a star
in its body. A comment along a line they may give back in part: they read on behind each of its
characters, if the rest of the text is no use to them otherwise.
-/

namespace ImportAtlas.Clean

open Pattern ImportRule

/-- A blank or a comment. -/
inductive Filler where
  /-- A blank. -/
  | blank (c : Char) (isBlank : Text.isBlank c)
  /-- A comment up to the end of its line. -/
  | line (body : List Char) (unbroken : '\n' ∉ body)
  /-- A comment on one line, up to the first star and slash in it. -/
  | block (body : List Char) (unbroken : '\n' ∉ body) (closed : ¬ ['*', '/'] <:+: body)

namespace Filler

/-- A blank or a comment as written. -/
def text : Filler → List Char
  | blank c _ => [c]
  | line body _ => '/' :: '/' :: (body ++ ['\n'])
  | block body _ _ => '/' :: '*' :: (body ++ ['*', '/'])

/-- Whether the rules get past it: no comment between slash and star with a star in its body. -/
def isPlain : Filler → Bool
  | blank _ _ | line _ _ => true
  | block body _ _ => body.all (· != '*')

end Filler

/-- Blanks and comments as written. -/
def fillerText (fillers : List Filler) : List Char := fillers.flatMap Filler.text

section Text

variable {f : Filler} {fillers before after : List Filler} {behind : List Char}

/-- A first filler and the others. -/
theorem fillerText_cons : fillerText (f :: fillers) = f.text ++ fillerText fillers :=
  List.flatMap_cons

/-- Fillers in two parts. -/
theorem fillerText_append : fillerText (before ++ after) = fillerText before ++ fillerText after :=
  List.flatMap_append

/-- A filler begins with a blank or with a slash. -/
theorem exists_cons_of_filler (f : Filler) : ∃ c t, f.text = c :: t ∧ (Text.isBlank c ∨ c = '/') := by
  cases f with
  | blank c hc => exact ⟨c, [], rfl, .inl hc⟩
  | line body | block body => exact ⟨'/', _, rfl, .inr rfl⟩

/-- Neither a blank nor a slash is a quote. -/
theorem isQuote_of_isBlank_or {c : Char} (h : Text.isBlank c ∨ c = '/') : isQuote c = false := by
  by_contra hquote
  have hq : isQuote c := Bool.not_eq_false _ ▸ hquote
  rcases h with hblank | rfl
  · rw [isBlank_of_isQuote hq] at hblank
    cases hblank
  · cases hq

/-- Where fillers are followed by a quote, a quote stands only behind all of them. -/
theorem eq_nil_of_beginsWith_quote (h : beginsWith isQuote (fillerText fillers ++ behind)) :
    fillers = [] := by
  cases fillers with
  | nil => rfl
  | cons f fillers =>
    obtain ⟨c, t, hc, hkind⟩ := exists_cons_of_filler f
    rw [fillerText_cons, hc] at h
    exact absurd h (by simp [beginsWith, isQuote_of_isBlank_or hkind])

end Text

section Taken

variable {left right behind body s : List Char}

/-- One round of comments: a comment and the blanks behind it. -/
def commentRound : Pattern := .seq (.alt blockComment lineComment) blanks

/-- A comment along a line is preferred up to the end of the line. -/
theorem prefers_lineComment (hbody : ∀ c ∈ body, c != '\n') :
    Prefers (.alt blockComment lineComment) left ('/' :: '/' :: body) ('\n' :: right) [] := by
  have hslash {left right : List Char} : Prefers (mark '/') left ['/'] right [] :=
    prefers_one (beq_self_eq_true '/')
  have hline : Prefers (all [many (· != '\n')]) (left ++ ['/'] ++ ['/']) body ('\n' :: right) [] :=
    (prefers_many hbody (Text.stops_cons.mpr rfl)).single
  refine Prefers.inr ?_ (hslash.cons (hslash.cons hline))
  rintro s right' gs hsplit hs
  obtain ⟨inner, rfl, -, -⟩ := accepts_blockComment.mp hs
  exact absurd (List.cons.inj (List.cons.inj hsplit).2).1 (by decide)

/-- A comment between slash and star is preferred as it is, if its body has no star. -/
theorem prefers_blockComment (hbody : ∀ c ∈ body, c != '*') :
    Prefers (.alt blockComment lineComment) left ('/' :: '*' :: (body ++ ['*', '/'])) right [] := by
  have hmark {c : Char} {left right : List Char} : Prefers (mark c) left [c] right [] :=
    prefers_one (beq_self_eq_true c)
  have hclose {left : List Char} : Prefers (all [mark '*', mark '/']) left ['*', '/'] right [] :=
    hmark.cons hmark.single
  have hrun : Prefers (many (· != '*')) (left ++ ['/'] ++ ['*']) body (['*', '/'] ++ right) [] :=
    prefers_many hbody (Text.stops_cons.mpr rfl)
  exact Prefers.inl (hmark.cons (hmark.cons (hrun.cons hclose)))

/-- Before a character that opens no comment, no round of comments is read. -/
theorem refuses_commentRound {c : Char} (hc : c ≠ '/') : commentRound.Refuses left (c :: right) := by
  rintro s right' gs hsplit ⟨s, t, gs, hs, rfl, rfl, hcomment, -⟩
  obtain ⟨d, s, rfl⟩ : ∃ d u, s = d :: u := List.exists_cons_of_ne_nil fun hnil => by
    simpa [hnil, beginsWith] using (endsHidden_comment hcomment).2
  obtain ⟨rfl, -⟩ := List.cons.inj hsplit
  exact hc (beq_iff_eq.mp (endsHidden_comment hcomment).2)

/-- Plain fillers are preferred as blanks and rounds of comments, if neither goes on behind them. -/
theorem exists_prefersRounds {c : Char} (hblank : Text.isBlank c = false) (hslash : c ≠ '/')
    (fillers : List Filler) (hplain : fillers.all Filler.isPlain) :
    ∃ u v, fillerText fillers = u ++ v ∧ (∀ d ∈ u, Text.isBlank d) ∧
      Text.Stops Text.isBlank (v ++ c :: behind) ∧
        ∀ left, PrefersRounds commentRound left v (c :: behind) [] := by
  -- A comment takes the blanks behind it into its round.
  have hround {comment u v : List Char} (hne : comment ≠ [])
      (hcomment : ∀ left, Prefers (.alt blockComment lineComment) left comment
        (u ++ (v ++ c :: behind)) [])
      (hu : ∀ d ∈ u, Text.isBlank d) (hv : Text.Stops Text.isBlank (v ++ c :: behind))
      (hrounds : ∀ left, PrefersRounds commentRound left v (c :: behind) []) (left : List Char) :
      PrefersRounds commentRound left ((comment ++ u) ++ v) (c :: behind) [] :=
    PrefersRounds.cons (by simp [hne]) ((hcomment left).seq (prefers_many hu hv)) (hrounds _)
  induction fillers with
  | nil =>
    exact ⟨[], [], rfl, by simp, Text.stops_cons.mpr hblank, fun _ =>
      prefersRounds_nil (refuses_commentRound hslash)⟩
  | cons f fillers ih =>
    obtain ⟨hf, hplain⟩ := Bool.and_eq_true_iff.mp hplain
    obtain ⟨u, v, hsplit, hu, hv, hrounds⟩ := ih hplain
    cases f with
    | blank d hd =>
      exact ⟨d :: u, v, by rw [fillerText_cons, hsplit]; rfl, List.forall_mem_cons.mpr ⟨hd, hu⟩, hv,
        hrounds⟩
    | line body hbody =>
      have hline : ∀ d ∈ body, d != '\n' := fun d hd => bne_iff_ne.mpr fun heq => hbody (heq ▸ hd)
      refine ⟨[], (('/' :: '/' :: body) ++ ('\n' :: u)) ++ v, ?_, by simp, Text.stops_cons.mpr rfl,
        hround (by simp) (fun _ => prefers_lineComment hline) ?_ hv hrounds⟩
      · rw [fillerText_cons, hsplit]
        simp [Filler.text]
      · exact List.forall_mem_cons.mpr ⟨by decide, hu⟩
    | block body _ _ =>
      refine ⟨[], (('/' :: '*' :: (body ++ ['*', '/'])) ++ u) ++ v, ?_, by simp,
        Text.stops_cons.mpr rfl,
        hround (by simp) (fun _ => prefers_blockComment (List.all_eq_true.mp hf)) hu hv hrounds⟩
      rw [fillerText_cons, hsplit]
      simp [Filler.text]

/-- Plain fillers are preferred whole, if neither a blank nor a comment goes on behind them. -/
theorem prefers_fillers {ps : List Pattern} {c : Char} {t : List Char} {fillers : List Filler}
    {new : List (ℕ × ℕ)} (hblank : Text.isBlank c = false) (hslash : c ≠ '/')
    (hplain : fillers.all Filler.isPlain) (ht : t ++ right = c :: behind)
    (h : Prefers (all ps) (left ++ fillerText fillers) t right new) :
    Prefers (all (blanks :: comments :: ps)) left (fillerText fillers ++ t) right new := by
  obtain ⟨u, v, hsplit, hu, hv, hrounds⟩ := @exists_prefersRounds behind c hblank hslash fillers hplain
  rw [hsplit, ← List.append_assoc] at h
  rw [← ht, ← List.append_assoc] at hv
  rw [← ht] at hrounds
  rw [hsplit, List.append_assoc]
  exact (prefers_many hu hv).cons ((hrounds _).star.cons h)

/-- No fillers are preferred before a character that begins none. -/
theorem prefers_no_fillers {ps : List Pattern} {c : Char} {t : List Char} {new : List (ℕ × ℕ)}
    (hblank : Text.isBlank c = false) (hslash : c ≠ '/') (ht : t ++ right = c :: behind)
    (h : Prefers (all ps) left t right new) :
    Prefers (all (blanks :: comments :: ps)) left t right new := by
  have hnone : Prefers (all ps) (left ++ fillerText []) t right new := by
    rwa [show left ++ fillerText [] = left from List.append_nil left]
  exact prefers_fillers hblank hslash rfl ht hnone

/-- A comment and the blanks behind it are a round before others. -/
theorem takes_comments_cons {comment u v : List Char} (hne : comment ≠ [])
    (hcomment : Takes (.alt blockComment lineComment) comment []) (hu : ∀ c ∈ u, Text.isBlank c)
    (hv : Takes comments v []) : Takes comments ((comment ++ u) ++ v) [] := by
  intro left right
  have hround : commentRound.Accepts left (comment ++ u) (v ++ right) [] :=
    ⟨comment, u, [], [], rfl, rfl, hcomment _ _, hu, rfl⟩
  exact Rounds.cons (by simp [hne]) hround (hv _ _)

/-- A comment along a line is taken up to any place in it. -/
theorem takes_lineComment (hbody : '\n' ∉ body) :
    Takes (.alt blockComment lineComment) ('/' :: '/' :: body) [] :=
  Takes.inr fun _ _ => accepts_lineComment.mpr
    ⟨body, rfl, fun _ hc => bne_iff_ne.mpr fun heq => hbody (heq ▸ hc), rfl⟩

/-- A comment between slash and star is taken, if its body has no star. -/
theorem takes_blockComment (hbody : ∀ c ∈ body, c != '*') :
    Takes (.alt blockComment lineComment) ('/' :: '*' :: (body ++ ['*', '/'])) [] :=
  Takes.inl fun _ _ => accepts_blockComment.mpr ⟨body, rfl, hbody, rfl⟩

/-- Plain fillers are accepted before what is accepted as blanks and comments. -/
theorem exists_takes_comments {u v : List Char} (hu : ∀ c ∈ u, Text.isBlank c)
    (hv : Takes comments v []) (fillers : List Filler) (hplain : fillers.all Filler.isPlain) :
    ∃ u' v', fillerText fillers ++ (u ++ v) = u' ++ v' ∧ (∀ c ∈ u', Text.isBlank c) ∧
      Takes comments v' [] := by
  induction fillers with
  | nil => exact ⟨u, v, rfl, hu, hv⟩
  | cons f fillers ih =>
    obtain ⟨hf, hplain⟩ := Bool.and_eq_true_iff.mp hplain
    obtain ⟨u', v', hsplit, hu', hv'⟩ := ih hplain
    have htext : fillerText (f :: fillers) ++ (u ++ v) = f.text ++ (u' ++ v') := by
      rw [fillerText_cons, List.append_assoc, hsplit]
    cases f with
    | blank c hc => exact ⟨c :: u', v', htext, List.forall_mem_cons.mpr ⟨hc, hu'⟩, hv'⟩
    | line body hbody =>
      have hnewline : ∀ c ∈ '\n' :: u', Text.isBlank c := List.forall_mem_cons.mpr ⟨by decide, hu'⟩
      exact ⟨[], (('/' :: '/' :: body) ++ ('\n' :: u')) ++ v', by rw [htext]; simp [Filler.text],
        by simp, takes_comments_cons (by simp) (takes_lineComment hbody) hnewline hv'⟩
    | block body _ _ =>
      exact ⟨[], (('/' :: '*' :: (body ++ ['*', '/'])) ++ u') ++ v',
        by rw [htext]; simp [Filler.text], by simp,
        takes_comments_cons (by simp) (takes_blockComment (List.all_eq_true.mp hf)) hu' hv'⟩

/-- Behind plain fillers, blanks and comments are accepted up to any place in a comment along a
line. -/
theorem accepts_into_line {ps : List Pattern} {done t : List Char} {fillers : List Filler}
    (hplain : fillers.all Filler.isPlain) (hdone : '\n' ∉ done)
    (h : ∀ left, (all ps).Accepts left t right []) :
    (all (blanks :: comments :: ps)).Accepts left
      (fillerText fillers ++ ('/' :: '/' :: done ++ t)) right [] := by
  have hline : Takes comments (('/' :: '/' :: done ++ []) ++ []) [] :=
    takes_comments_cons (by simp) (takes_lineComment hdone) (by simp) takes_no_comments
  obtain ⟨u, v, hsplit, hu, hv⟩ := @exists_takes_comments [] _ (by simp) hline fillers hplain
  have htext : fillerText fillers ++ ('/' :: '/' :: done ++ t) = u ++ (v ++ t) := by
    rw [← List.append_assoc u, ← hsplit]
    simp
  rw [htext]
  exact ⟨u, v ++ t, [], [], rfl, rfl, ⟨hu, rfl⟩, v, t, [], [], rfl, rfl, hv _ _, h _⟩

end Taken

/-- A comment along a line stands behind plain fillers. -/
def ReachesLine (fillers : List Filler) (body : List Char) (after : List Filler) : Prop :=
  ∃ before unbroken, fillers = before ++ .line body unbroken :: after ∧ before.all Filler.isPlain

/-- What is left of the text of fillers, and of what stands behind them, where blanks and comments
can end: at the border of a filler, or in a comment along a line. -/
inductive Reached (fillers : List Filler) (behind : List Char) : List Char → Prop
  /-- The fillers up to a border are read. -/
  | border {before after : List Filler} (hsplit : fillers = before ++ after)
      (hplain : before.all Filler.isPlain) : Reached fillers behind (fillerText after ++ behind)
  /-- A part of a comment is read. -/
  | inLine {done rest : List Char} {after : List Filler}
      (hline : ReachesLine fillers (done ++ rest) after) :
      Reached fillers behind (rest ++ '\n' :: (fillerText after ++ behind))

section Reached

variable {fillers : List Filler} {behind rest t : List Char}

/-- A border behind a plain filler. -/
theorem Reached.next {before after : List Filler} {f : Filler} (hsplit : fillers = before ++ f :: after)
    (hplain : before.all Filler.isPlain) (hf : f.isPlain) :
    Reached fillers behind (fillerText after ++ behind) := by
  have hnext : fillers = (before ++ [f]) ++ after := by rw [hsplit, List.append_assoc, List.singleton_append]
  exact .border hnext (by simp [List.all_append, hplain, hf])

/-- What begins with a blank or with a slash does not begin where the fillers end. -/
theorem exists_filler {after : List Filler} {c : Char} (hbehind : beginsWith isQuote behind)
    (hc : isQuote c = false) (h : fillerText after ++ behind = c :: t) :
    ∃ f after', after = f :: after' ∧ f.text ++ (fillerText after' ++ behind) = c :: t := by
  cases after with
  | nil =>
    rw [show behind = c :: t from h] at hbehind
    exact absurd (show isQuote c from hbehind) (by simp [hc])
  | cons f after => exact ⟨f, after, rfl, by rwa [fillerText_cons, List.append_assoc] at h⟩

/-- Behind a blank. -/
theorem Reached.blank {c : Char} (h : Reached fillers behind rest)
    (hbehind : beginsWith isQuote behind) (hrest : rest = c :: t) (hc : Text.isBlank c) :
    Reached fillers behind t := by
  cases h with
  | border hsplit hplain =>
    obtain ⟨f, after, rfl, htext⟩ := exists_filler hbehind (isQuote_of_isBlank_or (.inl hc)) hrest
    cases f with
    | blank d hd =>
      obtain ⟨-, rfl⟩ := List.cons.inj htext
      exact .next hsplit hplain rfl
    | line | block =>
      rw [← (List.cons.inj htext).1] at hc
      cases hc
  | @inLine done r after hline =>
    cases r with
    | nil =>
      obtain ⟨-, rfl⟩ := List.cons.inj hrest
      obtain ⟨before, unbroken, hsplit, hplain⟩ := hline
      exact .next hsplit hplain rfl
    | cons d r =>
      obtain ⟨-, rfl⟩ := List.cons.inj hrest
      have hline' : ReachesLine fillers ((done ++ [d]) ++ r) after := by rwa [List.append_assoc]
      exact .inLine hline'

/-- Behind blanks. -/
theorem Reached.blanks {run : List Char} (h : Reached fillers behind rest)
    (hbehind : beginsWith isQuote behind) (hrest : rest = run ++ t)
    (hrun : ∀ c ∈ run, Text.isBlank c) : Reached fillers behind t := by
  induction run generalizing rest with
  | nil => rwa [hrest] at h
  | cons c run ih =>
    obtain ⟨hc, hrun⟩ := List.forall_mem_cons.mp hrun
    exact ih (h.blank hbehind hrest hc) rfl hrun

/-- Behind two slashes and a part of their line. -/
theorem Reached.lineComment {body : List Char} (h : Reached fillers behind rest)
    (hbehind : beginsWith isQuote behind) (hrest : rest = '/' :: '/' :: (body ++ t))
    (hbody : '\n' ∉ body) : Reached fillers behind t := by
  cases h with
  | border hsplit hplain =>
    obtain ⟨f, after, rfl, htext⟩ := exists_filler hbehind rfl hrest
    cases f with
    | blank d hd =>
      rw [(List.cons.inj htext).1] at hd
      cases hd
    | line line unbroken =>
      have hline : line ++ '\n' :: (fillerText after ++ behind) = body ++ t := by
        simpa [Filler.text] using htext
      rcases cons_split hline with ⟨v, rfl, -⟩ | ⟨u, rfl, rfl⟩
      · exact absurd (by simp) hbody
      · exact .inLine ⟨_, unbroken, hsplit, hplain⟩
    | block => exact absurd (List.cons.inj (List.cons.inj htext).2).1 (by decide)
  | @inLine done r after hline =>
    have hbroken : r ++ '\n' :: (fillerText after ++ behind) = '/' :: '/' :: body ++ t := hrest
    rcases cons_split hbroken with ⟨v, hv, -⟩ | ⟨u, rfl, rfl⟩
    · have hmem : '\n' ∈ '/' :: '/' :: body := hv ▸ by simp
      exact absurd (by simpa using hmem) hbody
    · have hline' : ReachesLine fillers ((done ++ '/' :: '/' :: body) ++ u) after := by
        rwa [List.append_assoc]
      exact .inLine hline'

/-- Behind a comment between slash and star, if no star stands in the comments along a line. -/
theorem Reached.blockComment {body : List Char} (h : Reached fillers behind rest)
    (hbehind : beginsWith isQuote behind)
    (hstar : ∀ line after, ReachesLine fillers line after → '*' ∉ line)
    (hopen : rest = '/' :: '*' :: (body ++ '*' :: '/' :: t)) (hbody : ∀ c ∈ body, c != '*') :
    Reached fillers behind t := by
  cases h with
  | border hsplit hplain =>
    obtain ⟨f, after, rfl, htext⟩ := exists_filler hbehind rfl hopen
    cases f with
    | blank d hd =>
      rw [(List.cons.inj htext).1] at hd
      cases hd
    | line => exact absurd (List.cons.inj (List.cons.inj htext).2).1 (by decide)
    | block inner unbroken closed =>
      have hinner : inner ++ '*' :: '/' :: (fillerText after ++ behind) = body ++ '*' :: '/' :: t := by
        simpa [Filler.text] using htext
      rcases cons_split hinner with ⟨v, rfl, -⟩ | ⟨u, rfl, hu⟩
      · exact absurd (hbody '*' (by simp)) (by decide)
      · match u with
        | [] =>
          obtain rfl : t = fillerText after ++ behind := by simpa using hu
          refine .next hsplit hplain ?_
          rwa [Filler.isPlain, List.append_nil, List.all_eq_true]
        | [c] => exact absurd (List.cons.inj (List.cons.inj hu).2).1 (by decide)
        | c :: d :: u =>
          -- The comment would end here.
          obtain ⟨rfl, hrest⟩ := List.cons.inj hu
          obtain ⟨rfl, -⟩ := List.cons.inj hrest
          exact absurd ⟨body, u, by simp⟩ closed
  | @inLine done r after hline =>
    match r with
    | [] => exact absurd (List.cons.inj hopen).1 (by decide)
    | [c] => exact absurd (List.cons.inj (List.cons.inj hopen).2).1 (by decide)
    | c :: d :: r =>
      obtain ⟨-, hr⟩ := List.cons.inj hopen
      obtain ⟨rfl, -⟩ := List.cons.inj hr
      exact absurd (by simp) (hstar _ _ hline)

/-- Behind rounds of comments. -/
theorem Reached.rounds {left s right : List Char} {gs : List (List Char)}
    (hbehind : beginsWith isQuote behind)
    (hstar : ∀ line after, ReachesLine fillers line after → '*' ∉ line)
    (hs : Rounds commentRound.Accepts left s right gs) (h : Reached fillers behind (s ++ right)) :
    Reached fillers behind right := by
  induction hs with
  | nil => exact h
  | @cons left s t right gs hs _ hround _ ih =>
    obtain ⟨comment, run, _, _, rfl, rfl, hcomment, ⟨hrun, -⟩⟩ := hround
    refine ih ?_
    have hsplit : (comment ++ run ++ t) ++ right = comment ++ (run ++ (t ++ right)) := by simp
    rw [hsplit] at h
    rcases hcomment with hblock | hline
    · obtain ⟨body, rfl, hbody, -⟩ := accepts_blockComment.mp hblock
      exact (h.blockComment hbehind hstar (by simp) hbody).blanks hbehind rfl hrun
    · obtain ⟨body, rfl, hbody, -⟩ := accepts_lineComment.mp hline
      have hunbroken : '\n' ∉ body := fun hmem => absurd (hbody _ hmem) (by decide)
      exact (h.lineComment hbehind rfl hunbroken).blanks hbehind rfl hrun

/-- Where fillers are followed by a quote, blanks and comments end at the border of a filler or in a
comment along a line, if these comments hold no star. -/
theorem reached_of_accepts {ps : List Pattern} {left s right : List Char} {gs : List (List Char)}
    (hbehind : beginsWith isQuote behind)
    (hstar : ∀ line after, ReachesLine fillers line after → '*' ∉ line)
    (htext : s ++ right = fillerText fillers ++ behind)
    (h : (all (blanks :: comments :: ps)).Accepts left s right gs) :
    ∃ t left' , Reached fillers behind (t ++ right) ∧ (all ps).Accepts left' t right gs := by
  obtain ⟨u, s, _, gs, rfl, rfl, ⟨hu, rfl⟩, v, t, gs', hs, rfl, rfl, hv, h⟩ := h
  obtain rfl : gs' = [] := eq_nil_of_isSilent rfl hv
  have hstart : Reached fillers behind (fillerText fillers ++ behind) :=
    @Reached.border fillers behind [] fillers rfl rfl
  have hborder : Reached fillers behind (v ++ (t ++ right)) :=
    hstart.blanks hbehind (by rw [← htext]; simp) hu
  exact ⟨t, _, .rounds hbehind hstar hv hborder, h⟩

end Reached

end ImportAtlas.Clean
