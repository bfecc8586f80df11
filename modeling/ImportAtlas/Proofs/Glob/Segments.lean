import ImportAtlas.Glob.Compile
import ImportAtlas.Proofs.Outcome
import ImportAtlas.Proofs.Pattern.Searching

/-!
# The names that a segment accepts

A segment without brackets stays within one name: no piece of it accepts a slash. It looks neither at what
stands before the name nor at what stands behind it, and it accepts the empty name only if it consists of
stars, in which case it accepts every name.
-/

namespace ImportAtlas.Glob

open Pattern

/-- Whether a piece stands for characters of one name only. A bracket need not: one that is negated
accepts a slash. -/
def Piece.isWithinName : Piece → Bool
  | .char c => c != '/'
  | .star | .any => true
  | .bracket _ _ => false

/-- What is read with a piece in front is that piece and what is read. -/
theorem Reading.exists_of_cons_eq_ok {α : Type} {a : α} {bs : List α} {reading : Reading (List α)}
    (h : reading.cons a = .ok bs) : ∃ as, reading = .ok as ∧ bs = a :: as := by
  cases reading with
  | ok as =>
    cases h
    exact ⟨as, rfl, rfl⟩
  | noOperation | invalid => cases h

/-- Every piece that is read from a part of a name without brackets stays within one name. -/
theorem isWithinName_of_readSegment {bound : ℕ} {s : List Char} {pieces : List Piece}
    (hslash : '/' ∉ s) (hbracket : '[' ∉ s) (h : readSegment bound s = .ok pieces) :
    ∀ piece ∈ pieces, piece.isWithinName := by
  have hnext {piece : Piece} {rest : List Piece} (hpiece : piece.isWithinName)
      (hrest : ∀ piece ∈ rest, piece.isWithinName) : ∀ other ∈ piece :: rest, other.isWithinName :=
    List.forall_mem_cons.mpr ⟨hpiece, hrest⟩
  fun_induction readSegment bound s generalizing pieces with
  | case1 | case2 =>
    cases h
    exact nofun
  | case3 => cases h
  | case4 bound e rest ih =>
    obtain ⟨others, hothers, rfl⟩ := Reading.exists_of_cons_eq_ok h
    simp only [List.mem_cons, not_or] at hslash hbracket
    exact hnext (bne_iff_ne.mpr (Ne.symm hslash.2.1)) (ih hslash.2.2 hbracket.2.2 hothers)
  | case5 bound rest _ ih =>
    obtain ⟨others, hothers, rfl⟩ := Reading.exists_of_cons_eq_ok h
    exact hnext rfl (ih (List.not_mem_of_not_mem_cons hslash) (List.not_mem_of_not_mem_cons hbracket) hothers)
  | case6 bound rest _ _ ih =>
    obtain ⟨others, hothers, rfl⟩ := Reading.exists_of_cons_eq_ok h
    exact hnext rfl (ih (List.not_mem_of_not_mem_cons hslash) (List.not_mem_of_not_mem_cons hbracket) hothers)
  | case7 => exact absurd List.mem_cons_self hbracket
  | case8 => exact absurd List.mem_cons_self hbracket
  | case9 bound c rest _ _ _ _ ih =>
    obtain ⟨others, hothers, rfl⟩ := Reading.exists_of_cons_eq_ok h
    rw [List.mem_cons, not_or] at hslash
    exact hnext (bne_iff_ne.mpr (Ne.symm hslash.1))
      (ih hslash.2 (List.not_mem_of_not_mem_cons hbracket) hothers)

/-- A part of a name that is not empty has a piece. -/
theorem ne_nil_of_readSegment {bound : ℕ} {s : List Char} {pieces : List Piece} (hbound : 0 < bound)
    (hs : s ≠ []) (h : readSegment bound s = .ok pieces) : pieces ≠ [] := by
  have hcons {piece : Piece} {reading : Reading (List Piece)} (h : reading.cons piece = .ok pieces) :
      pieces ≠ [] := by
    obtain ⟨others, -, rfl⟩ := Reading.exists_of_cons_eq_ok h
    exact List.cons_ne_nil _ _
  revert h
  fun_cases readSegment bound s with
  | case1 => exact absurd hbound (Nat.lt_irrefl 0)
  | case2 => exact absurd rfl hs
  | case3 | case7 => exact nofun
  | case4 | case5 | case6 | case8 | case9 => exact hcons

/-- A part of a name without backslashes and brackets can be read. -/
theorem exists_readSegment {s : List Char} (hescape : '\\' ∉ s) (hbracket : '[' ∉ s) (bound : ℕ) :
    ∃ pieces, readSegment bound s = .ok pieces := by
  fun_induction readSegment bound s with
  | case1 | case2 => exact ⟨[], rfl⟩
  | case3 => exact absurd List.mem_cons_self hescape
  | case4 => exact absurd List.mem_cons_self hescape
  | case5 bound rest _ ih | case6 bound rest _ _ ih =>
    obtain ⟨pieces, hpieces⟩ :=
      ih (List.not_mem_of_not_mem_cons hescape) (List.not_mem_of_not_mem_cons hbracket)
    exact ⟨_, by rw [hpieces]; rfl⟩
  | case7 => exact absurd List.mem_cons_self hbracket
  | case8 => exact absurd List.mem_cons_self hbracket
  | case9 bound c rest _ _ _ _ ih =>
    obtain ⟨pieces, hpieces⟩ :=
      ih (List.not_mem_of_not_mem_cons hescape) (List.not_mem_of_not_mem_cons hbracket)
    exact ⟨_, by rw [hpieces]; rfl⟩

/-- The pattern of the name that a segment describes. -/
def namePattern (pieces : List Piece) : Except GlobError Pattern :=
  if pieces = [.star] then .ok (.some notSlash) else piecesPattern pieces

section Pieces

variable {piece : Piece} {pieces : List Piece} {p : Pattern}

/-- The pattern of several pieces is that of the first followed by that of the others. -/
theorem exists_of_piecesPattern_cons (h : piecesPattern (piece :: pieces) = .ok p) :
    ∃ first second, piece.pattern = .ok first ∧ piecesPattern pieces = .ok second ∧
      p = .seq first second := by
  rw [piecesPattern] at h
  obtain ⟨first, hfirst, h⟩ := exists_of_bind_eq_ok h
  obtain ⟨second, hsecond, h⟩ := exists_of_bind_eq_ok h
  cases h
  exact ⟨first, second, hfirst, hsecond, rfl⟩

/-- Pieces that stay within one name have a pattern. -/
theorem exists_piecesPattern (h : ∀ piece ∈ pieces, piece.isWithinName) :
    ∃ p, piecesPattern pieces = .ok p := by
  induction pieces with
  | nil => exact ⟨.empty, rfl⟩
  | cons piece pieces ih =>
    obtain ⟨hpiece, hpieces⟩ := List.forall_mem_cons.mp h
    obtain ⟨second, hsecond⟩ := ih hpieces
    rw [piecesPattern, hsecond]
    cases piece with
    | char | star | any => exact ⟨_, rfl⟩
    | bracket => cases hpiece

/-- A piece is a star, or it takes one character. -/
theorem Piece.eq_star_or_one (h : piece.pattern = .ok p) :
    piece = .star ∧ p = .many notSlash ∨ ∃ belongs, p = .one belongs := by
  cases piece with
  | star =>
    cases h
    exact .inl ⟨rfl, rfl⟩
  | char | any =>
    cases h
    exact .inr ⟨_, rfl⟩
  | bracket negated body =>
    obtain ⟨ranges, -, hone⟩ := exists_of_map_eq_ok h
    exact .inr ⟨_, hone⟩

/-- A piece does not look around. -/
theorem Piece.looks_pattern (h : piece.pattern = .ok p) :
    p.looksBack = false ∧ p.looksAhead = false := by
  rcases Piece.eq_star_or_one h with ⟨-, rfl⟩ | ⟨belongs, rfl⟩
  · exact ⟨rfl, rfl⟩
  · exact ⟨rfl, rfl⟩

/-- Pieces do not look around. -/
theorem looks_piecesPattern (h : piecesPattern pieces = .ok p) :
    p.looksBack = false ∧ p.looksAhead = false := by
  induction pieces generalizing p with
  | nil =>
    cases h
    exact ⟨rfl, rfl⟩
  | cons piece pieces ih =>
    obtain ⟨first, second, hfirst, hsecond, rfl⟩ := exists_of_piecesPattern_cons h
    obtain ⟨hbackFirst, haheadFirst⟩ := Piece.looks_pattern hfirst
    obtain ⟨hbackSecond, haheadSecond⟩ := ih hsecond
    exact ⟨by rw [looksBack, hbackFirst, hbackSecond, Bool.or_false],
      by rw [looksAhead, haheadFirst, haheadSecond, Bool.or_false]⟩

variable {left left' s t right right' : List Char} {gs : List (List Char)}

/-- A piece that stays within one name accepts no slash. -/
theorem Piece.notMem_of_accepts (hpiece : piece.isWithinName) (hp : piece.pattern = .ok p)
    (h : p.Accepts left s right gs) : '/' ∉ s := by
  cases piece with
  | char c =>
    cases hp
    obtain ⟨⟨d, hd, rfl⟩, -⟩ := h
    rw [List.mem_singleton, beq_iff_eq.mp hd]
    exact Ne.symm (bne_iff_ne.mp hpiece)
  | star =>
    cases hp
    intro hslash
    exact absurd (h.1 '/' hslash) (by decide)
  | any =>
    cases hp
    obtain ⟨⟨d, hd, rfl⟩, -⟩ := h
    rw [List.mem_singleton]
    exact Ne.symm (bne_iff_ne.mp hd)
  | bracket => cases hpiece

/-- Pieces that stay within one name accept no slash. -/
theorem notMem_of_accepts_piecesPattern (hpieces : ∀ piece ∈ pieces, piece.isWithinName)
    (hp : piecesPattern pieces = .ok p) (h : p.Accepts left s right gs) : '/' ∉ s := by
  induction pieces generalizing p left s gs with
  | nil =>
    cases hp
    rw [h.1]
    exact List.not_mem_nil
  | cons piece pieces ih =>
    obtain ⟨first, second, hfirst, hsecond, rfl⟩ := exists_of_piecesPattern_cons hp
    obtain ⟨s, t, gs, hs, rfl, rfl, hown, hothers⟩ := h
    obtain ⟨hpiece, hpieces⟩ := List.forall_mem_cons.mp hpieces
    rw [List.mem_append, not_or]
    exact ⟨Piece.notMem_of_accepts hpiece hfirst hown, ih hpieces hsecond hothers⟩

/-- Pieces that accept nothing at all are stars, so that they accept every name. -/
theorem accepts_of_accepts_nil (hne : pieces ≠ []) (hp : piecesPattern pieces = .ok p)
    (h : p.Accepts left [] right gs) (ht : '/' ∉ t) : ∃ gs', p.Accepts left' t right' gs' := by
  cases pieces with
  | nil => exact absurd rfl hne
  | cons piece pieces =>
    obtain ⟨first, second, hfirst, hsecond, rfl⟩ := exists_of_piecesPattern_cons hp
    obtain ⟨s, s', gs, hs, hnil, rfl, hown, hothers⟩ := h
    obtain ⟨rfl, rfl⟩ := List.append_eq_nil_iff.mp hnil.symm
    rcases Piece.eq_star_or_one hfirst with ⟨-, rfl⟩ | ⟨belongs, rfl⟩
    · obtain ⟨hback, hahead⟩ := looks_piecesPattern hsecond
      -- The star takes the whole name, and the others still nothing.
      have hrest : second.Accepts (left' ++ t) [] right' hs :=
        accepts_congr (by simp [hback]) (by simp [hahead]) hothers
      refine ⟨hs, t, [], [], hs, by simp, rfl, ⟨fun c hc => ?_, rfl⟩, hrest⟩
      rw [notSlash, bne_iff_ne]
      rintro rfl
      exact ht hc
    · obtain ⟨⟨c, -, hc⟩, -⟩ := hown
      cases hc

end Pieces

/-- The pattern of a name alone does not look around. -/
theorem looks_namePattern {pieces : List Piece} {p : Pattern} (h : namePattern pieces = .ok p) :
    p.looksBack = false ∧ p.looksAhead = false := by
  rw [namePattern] at h
  split at h
  · cases h
    exact ⟨rfl, rfl⟩
  · exact looks_piecesPattern h

/-- A pattern for one name: it looks at nothing around the name, accepts no slash, and if it accepts the
empty name, it accepts every name. -/
structure IsNamePattern (p : Pattern) : Prop where
  looksBack : p.looksBack = false
  looksAhead : p.looksAhead = false
  notMem {left s right : List Char} {gs : List (List Char)} : p.Accepts left s right gs → '/' ∉ s
  of_nil {left right left' t right' : List Char} {gs : List (List Char)} :
    p.Accepts left [] right gs → '/' ∉ t → ∃ gs', p.Accepts left' t right' gs'

/-- The pattern of a segment that has pieces, all of which stay within one name. -/
theorem isNamePattern_namePattern {pieces : List Piece} {p : Pattern} (hne : pieces ≠ [])
    (hpieces : ∀ piece ∈ pieces, piece.isWithinName) (hp : namePattern pieces = .ok p) :
    IsNamePattern p := by
  obtain ⟨hback, hahead⟩ := looks_namePattern hp
  rw [namePattern] at hp
  split at hp
  · cases hp
    refine ⟨hback, hahead, fun h hslash => ?_, fun h => ?_⟩
    · exact absurd ((accepts_some.mp h).2.1 '/' hslash) (by decide)
    · exact absurd rfl (accepts_some.mp h).1
  · exact ⟨hback, hahead, notMem_of_accepts_piecesPattern hpieces hp, accepts_of_accepts_nil hne hp⟩

/-- What a name pattern accepts does not depend on what stands around. -/
theorem IsNamePattern.accepts_congr {p : Pattern} (hp : IsNamePattern p)
    {left left' s right right' : List Char} {gs : List (List Char)} (h : p.Accepts left s right gs) :
    p.Accepts left' s right' gs :=
  Pattern.accepts_congr (by simp [hp.looksBack]) (by simp [hp.looksAhead]) h

/-- A text begins with a name, behind which it ends or goes on with a slash. -/
theorem exists_name (text : List Char) :
    ∃ name rest, text = name ++ rest ∧ '/' ∉ name ∧ (rest = [] ∨ ∃ back, rest = '/' :: back) := by
  induction text with
  | nil => exact ⟨[], [], rfl, List.not_mem_nil, .inl rfl⟩
  | cons c text ih =>
    obtain ⟨name, rest, rfl, hname, hrest⟩ := ih
    by_cases hc : c = '/'
    · exact ⟨[], c :: (name ++ rest), rfl, List.not_mem_nil, .inr ⟨_, by rw [hc]⟩⟩
    · refine ⟨c :: name, rest, rfl, ?_, hrest⟩
      rw [List.mem_cons, not_or]
      exact ⟨Ne.symm hc, hname⟩

/-- A name and its end: a slash, or nothing at the end of the text or before a last newline. -/
theorem accepts_name_nameEnd {own : Pattern} {left s right : List Char} {gs : List (List Char)} :
    (all [own, nameEnd, .empty]).Accepts left s right gs ↔ ∃ name tail inner marks,
      s = name ++ tail ∧ gs = inner ++ marks ∧ own.Accepts left name (tail ++ right) inner ∧
        (tail = ['/'] ∧ marks = [['/']] ∨
          tail = [] ∧ marks = [] ∧ (right = [] ∨ right = ['\n'])) := by
  have hend {left tail : List Char} {marks : List (List Char)} :
      (all [nameEnd, .empty]).Accepts left tail right marks ↔
        tail = ['/'] ∧ marks = [['/']] ∨ tail = [] ∧ marks = [] ∧ (right = [] ∨ right = ['\n']) := by
    have hnone {left right : List Char} : (all [.empty]).Accepts left [] right [] :=
      ⟨[], [], [], [], rfl, rfl, ⟨rfl, rfl⟩, rfl, rfl⟩
    constructor
    · rintro ⟨tail, s, marks, gs, rfl, rfl, hend, t, t', hs, hs', rfl, rfl, ⟨rfl, rfl⟩, rfl, rfl⟩
      simp only [List.append_nil]
      rcases hend with ⟨gs, ⟨⟨c, hc, rfl⟩, rfl⟩, rfl⟩ | ⟨hright, rfl, rfl⟩
      · exact .inl ⟨by rw [beq_iff_eq.mp hc], by rw [beq_iff_eq.mp hc]; rfl⟩
      · exact .inr ⟨rfl, rfl, hright⟩
    · rintro (⟨rfl, rfl⟩ | ⟨rfl, rfl, hright⟩)
      · exact ⟨['/'], [], [['/']], [], rfl, rfl, .inl ⟨[], ⟨⟨'/', rfl, rfl⟩, rfl⟩, rfl⟩, hnone⟩
      · exact ⟨[], [], [], [], rfl, rfl, .inr ⟨hright, rfl, rfl⟩, hnone⟩
  constructor
  · rintro ⟨name, tail, inner, marks, rfl, rfl, hown, hrest⟩
    exact ⟨name, tail, inner, marks, rfl, rfl, hown, hend.mp hrest⟩
  · rintro ⟨name, tail, inner, marks, rfl, rfl, hown, htail⟩
    exact ⟨name, tail, inner, marks, rfl, rfl, hown, hend.mpr htail⟩

/-- Leaving out the blanks at the end of a glob text leaves its beginning. -/
theorem trimEnd_isPrefix (text : List Char) : trimEnd text <+: text := by
  rw [trimEnd]
  split
  · exact List.prefix_refl text
  · rw [Text.stripRight, ← List.reverse_suffix, List.reverse_reverse]
    exact List.dropWhile_suffix _

/-- What a glob text begins with without the blanks at its end, it begins with. -/
theorem head?_of_head?_trimEnd {text : List Char} {c : Char}
    (h : (trimEnd text).head? = Option.some c) : text.head? = Option.some c := by
  obtain ⟨blanks, hblanks⟩ := trimEnd_isPrefix text
  rw [← hblanks, List.head?_append, h]
  rfl

/-- The pattern of the segments from a name on. -/
theorem exists_of_segmentsPattern_name {directory first slash : Bool} {pieces : List Piece}
    {rest : List Segment} {p : Pattern}
    (h : segmentsPattern directory first slash (.name pieces :: rest) = .ok p) :
    ∃ own others, namePattern pieces = .ok own ∧
      segmentsPattern directory false true rest = .ok others ∧
      p = .all [if first then .textStart else .empty, if slash then .one (· == '/') else .empty, own,
        if rest.isEmpty then nameEnd else .empty, others] := by
  have hunfold : segmentsPattern directory first slash (.name pieces :: rest) = (do
      let own ← namePattern pieces
      let others ← segmentsPattern directory false true rest
      return .all [if first then .textStart else .empty, if slash then .one (· == '/') else .empty, own,
        if rest.isEmpty then nameEnd else .empty, others]) := by
    cases first <;> (rw [segmentsPattern, namePattern]; split <;> rfl)
  rw [hunfold] at h
  obtain ⟨own, hown, h⟩ := exists_of_bind_eq_ok h
  obtain ⟨others, hothers, h⟩ := exists_of_bind_eq_ok h
  cases h
  exact ⟨own, others, hown, hothers, rfl⟩

end ImportAtlas.Glob
