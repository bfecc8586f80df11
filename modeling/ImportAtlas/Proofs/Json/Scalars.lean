import Mathlib.Data.Nat.Notation
import ImportAtlas.Json.Reader
import ImportAtlas.Proofs.Text.Runs
import ImportAtlas.Text.Blank

/-!
# Literals and numbers as JSON writes them

The reader takes a number as far as its grammar allows, so that what it takes depends on the text
behind the number only in so far as the number could go on there. Letters, digits, signs and points are
the characters that literals and numbers consist of; where none of them follows, nothing goes on.
-/

namespace ImportAtlas.Json

/-- Whether a character may stand in a literal or a number. -/
def inScalar (c : Char) : Bool := c.isAlphanum || c == '.' || c == '+' || c == '-'

variable {s part whole fraction rest : List Char} {c : Char} {v : Json} {negative : Bool}

/-- A digit may stand in a number. -/
theorem inScalar_of_isDigit (h : c.isDigit) : inScalar c := by
  simp [inScalar, Char.isAlphanum, h]

/-- What may stand in a literal or a number is no blank. -/
theorem isBlank_eq_false (h : inScalar c) : Text.isBlank c = false := by
  change ((((decide (65 ≤ c.val ∧ c.val ≤ 90) || decide (97 ≤ c.val) && decide (c.val ≤ 122)) ||
    decide (48 ≤ c.val) && decide (c.val ≤ 57)) || c == '.') || c == '+') || c == '-' at h
  simp only [Bool.or_eq_true, Bool.and_eq_true, decide_eq_true_eq, beq_iff_eq,
    UInt32.le_iff_toNat_le] at h
  have hletters : (((65 ≤ c.toNat ∧ c.toNat ≤ 90 ∨ 97 ≤ c.toNat ∧ c.toNat ≤ 122) ∨
      48 ≤ c.toNat ∧ c.toNat ≤ 57) ∨ c = '.') ∨ c = '+' ∨ c = '-' := or_assoc.mp h
  rcases hletters with (h | rfl) | rfl | rfl
  · simp only [Text.isBlank, Bool.or_eq_false_iff, Bool.and_eq_false_iff, decide_eq_false_iff_not,
      beq_eq_false_iff_ne]
    omega
  all_goals decide

/-- Where no number goes on, no digits go on. -/
theorem stops_isDigit (h : Text.Stops inScalar rest) : Text.Stops Char.isDigit rest := fun c hc =>
  Bool.eq_false_iff.mpr fun hdigit => by simpa [inScalar_of_isDigit hdigit] using h c hc

/-- The digits of a whole number. -/
theorem takeWhole_eq_some (h : takeWhole s = some (whole, rest)) :
    s = whole ++ rest ∧ (∃ d digits, whole = d :: digits ∧ d.isDigit) ∧
      (∀ c ∈ whole, inScalar c) ∧
      ∀ rest', Text.Stops Char.isDigit rest' → takeWhole (whole ++ rest') = some (whole, rest') := by
  cases s with
  | nil => cases h
  | cons c s =>
    rw [takeWhole] at h
    split at h
    · next hzero =>
      cases h
      subst hzero
      exact ⟨rfl, ⟨'0', [], rfl, rfl⟩, List.all_eq_true.mp (by decide), fun _ _ => rfl⟩
    next hzero =>
    split at h
    · next hdigit =>
      cases h
      refine ⟨by simp, ⟨c, _, rfl, hdigit⟩, ?_, fun rest' hrest' => ?_⟩
      · refine List.forall_mem_cons.mpr ⟨inScalar_of_isDigit hdigit, fun d hd => ?_⟩
        exact inScalar_of_isDigit (List.all_eq_true.mp List.all_takeWhile d hd)
      · have hrun : ∀ d ∈ s.takeWhile Char.isDigit, d.isDigit :=
          List.all_eq_true.mp List.all_takeWhile
        rw [List.cons_append, takeWhole, if_neg hzero, if_pos hdigit, Text.takeWhile_run hrun hrest',
          Text.dropWhile_run hrun hrest']
    · cases h

/-- The digits of a fraction with the point before them, or nothing. -/
theorem takeFraction_eq (h : takeFraction s = (fraction, rest)) :
    ∃ part, s = part ++ rest ∧ (∀ c ∈ part.head?, c = '.') ∧ (∀ c ∈ part, inScalar c) ∧
      ∀ rest', Text.Stops (fun c => c.isDigit || c == '.') rest' →
        takeFraction (part ++ rest') = (fraction, rest') := by
  have hnothing {s : List Char} : ∃ part, s = part ++ s ∧ (∀ c ∈ part.head?, c = '.') ∧
      (∀ c ∈ part, inScalar c) ∧ ∀ rest', Text.Stops (fun c => c.isDigit || c == '.') rest' →
        takeFraction (part ++ rest') = ([], rest') := by
    refine ⟨[], rfl, nofun, nofun, fun rest' hstops => ?_⟩
    rw [List.nil_append]
    unfold takeFraction
    split
    · exact absurd (hstops '.' rfl) (by decide)
    · rfl
  unfold takeFraction at h
  split at h
  · next digits =>
    split at h
    · next hdigit =>
      cases h
      have hrun : ∀ d ∈ digits.takeWhile Char.isDigit, d.isDigit :=
        List.all_eq_true.mp List.all_takeWhile
      refine ⟨'.' :: digits.takeWhile Char.isDigit, by simp, by simp, ?_, fun rest' hrest' => ?_⟩
      · exact List.forall_mem_cons.mpr ⟨rfl, fun d hd => inScalar_of_isDigit (hrun d hd)⟩
      · have hstops : Text.Stops Char.isDigit rest' := fun c hc =>
          (Bool.or_eq_false_iff.mp (hrest' c hc)).1
        have hhead : (digits.takeWhile Char.isDigit ++ rest').head?.any Char.isDigit := by
          cases digits with
          | nil => cases hdigit
          | cons d digits =>
            have hd : d.isDigit := hdigit
            rw [List.takeWhile_cons_of_pos hd]
            exact hd
        rw [List.cons_append, takeFraction, if_pos hhead, Text.takeWhile_run hrun hstops,
          Text.dropWhile_run hrun hstops]
    · cases h
      exact hnothing
  · cases h
    exact hnothing

/-- The digits of an exponent, where at least one is there. -/
theorem digits_append {digits rest' : List Char} (hdigit : digits.head?.any Char.isDigit)
    (hrest' : Text.Stops inScalar rest') :
    (∃ d others, digits.takeWhile Char.isDigit = d :: others ∧ d.isDigit) ∧
      (∀ c ∈ digits.takeWhile Char.isDigit, inScalar c) ∧
      (digits.takeWhile Char.isDigit ++ rest').head?.any Char.isDigit ∧
      (digits.takeWhile Char.isDigit ++ rest').takeWhile Char.isDigit =
        digits.takeWhile Char.isDigit ∧
      (digits.takeWhile Char.isDigit ++ rest').dropWhile Char.isDigit = rest' := by
  have hrun : ∀ d ∈ digits.takeWhile Char.isDigit, d.isDigit :=
    List.all_eq_true.mp List.all_takeWhile
  have hfirst : ∃ d others, digits.takeWhile Char.isDigit = d :: others ∧ d.isDigit := by
    cases digits with
    | nil => cases hdigit
    | cons d digits => exact ⟨d, _, List.takeWhile_cons_of_pos hdigit, hdigit⟩
  refine ⟨hfirst, fun d hd => inScalar_of_isDigit (hrun d hd), ?_,
    Text.takeWhile_run hrun (stops_isDigit hrest'), Text.dropWhile_run hrun (stops_isDigit hrest')⟩
  obtain ⟨d, others, heq, hd⟩ := hfirst
  rw [heq]
  exact hd

/-- A sign, whether it is a minus, and what stands behind it. -/
def takeSign (s : List Char) : Bool × List Char :=
  match s with
  | '-' :: digits => (true, digits)
  | '+' :: digits => (false, digits)
  | _ => (false, s)

/-- A sign before a digit. -/
theorem exists_sign (s : List Char) : ∃ sign, s = sign ++ (takeSign s).2 ∧ (∀ c ∈ sign, inScalar c) ∧
    ∀ d digits, d.isDigit → takeSign (sign ++ d :: digits) = ((takeSign s).1, d :: digits) := by
  unfold takeSign
  split
  · exact ⟨['-'], rfl, List.all_eq_true.mp (by decide), fun d digits _ => rfl⟩
  · exact ⟨['+'], rfl, List.all_eq_true.mp (by decide), fun d digits _ => rfl⟩
  · refine ⟨[], rfl, nofun, fun d digits hd => ?_⟩
    rw [List.nil_append]
    split
    · next heq => exact absurd ((List.cons.inj heq).1 ▸ hd) (by decide)
    · next heq => exact absurd ((List.cons.inj heq).1 ▸ hd) (by decide)
    · rfl

/-- An exponent is a mark, a sign and digits. -/
theorem takeExponent_cons (mark : Char) (s : List Char) :
    takeExponent (mark :: s) =
      if (mark = 'e' ∨ mark = 'E') ∧ (takeSign s).2.head?.any Char.isDigit then
        let n : Int := digitsValue ((takeSign s).2.takeWhile Char.isDigit)
        (some (if (takeSign s).1 then -n else n), (takeSign s).2.dropWhile Char.isDigit)
      else (none, mark :: s) := by
  unfold takeExponent takeSign
  by_cases hmark : mark = 'e' ∨ mark = 'E'
  · dsimp only
    rw [if_pos hmark]
    exact (ite_congr (propext (and_iff_right hmark)) (fun _ => rfl) fun _ => rfl).symm
  · dsimp only
    rw [if_neg hmark, if_neg (fun h => hmark h.1)]

/-- An exponent, or nothing. -/
theorem takeExponent_eq {exponent : Option Int} (h : takeExponent s = (exponent, rest)) :
    ∃ part, s = part ++ rest ∧ (∀ c ∈ part.head?, c = 'e' ∨ c = 'E') ∧ (∀ c ∈ part, inScalar c) ∧
      ∀ rest', Text.Stops inScalar rest' → takeExponent (part ++ rest') = (exponent, rest') := by
  have hnothing {s : List Char} : ∃ part, s = part ++ s ∧ (∀ c ∈ part.head?, c = 'e' ∨ c = 'E') ∧
      (∀ c ∈ part, inScalar c) ∧ ∀ rest', Text.Stops inScalar rest' →
        takeExponent (part ++ rest') = (none, rest') := by
    refine ⟨[], rfl, nofun, nofun, fun rest' hrest' => ?_⟩
    cases rest' with
    | nil => rfl
    | cons mark rest' =>
      rw [List.nil_append, takeExponent_cons, if_neg]
      rintro ⟨rfl | rfl, -⟩ <;> exact absurd (hrest' _ rfl) (by decide)
  cases s with
  | nil =>
    cases h
    exact hnothing
  | cons mark s =>
    rw [takeExponent_cons] at h
    split at h
    · next hall =>
      cases h
      obtain ⟨hmark, hdigit⟩ := hall
      obtain ⟨sign, hsign, hmem, htake⟩ := exists_sign s
      have hbegins : inScalar mark := by rcases hmark with rfl | rfl <;> decide
      refine ⟨mark :: sign ++ (takeSign s).2.takeWhile Char.isDigit, ?_, by simpa using hmark, ?_,
        fun rest' hrest' => ?_⟩
      · rw [List.append_assoc, List.takeWhile_append_dropWhile, List.cons_append, ← hsign]
      · rw [List.cons_append, List.forall_mem_cons, List.forall_mem_append]
        exact ⟨hbegins, hmem, (@digits_append _ [] hdigit nofun).2.1⟩
      · obtain ⟨⟨d, others, heq, hd⟩, -, hhead, hrun, hdrop⟩ := digits_append hdigit hrest'
        have hsigned : takeSign (sign ++ ((takeSign s).2.takeWhile Char.isDigit ++ rest')) =
            ((takeSign s).1, (takeSign s).2.takeWhile Char.isDigit ++ rest') := by
          rw [heq]
          exact htake d _ hd
        rw [List.append_assoc, List.cons_append, takeExponent_cons, hsigned, if_pos ⟨hmark, hhead⟩]
        dsimp only
        rw [hrun, hdrop]
    · cases h
      exact hnothing

/-- A number behind its sign. -/
def takeUnsigned (negative : Bool) (unsigned : List Char) : Option (Json × List Char) :=
  match takeWhole unsigned with
  | none => none
  | some (whole, afterWhole) =>
    let (fraction, afterFraction) := takeFraction afterWhole
    let (exponent, rest) := takeExponent afterFraction
    if fraction = [] ∧ exponent = none then
      let n : Int := digitsValue whole
      some (.int (if negative then -n else n), rest)
    else
      let x := nearestFloat (whole ++ fraction) (exponent.getD 0 - fraction.length)
      some (.float (if negative then -x else x), rest)

/-- A number with a minus. -/
theorem takeNumber_minus (s : List Char) : takeNumber ('-' :: s) = takeUnsigned true s := rfl

/-- A number without a minus. -/
theorem takeNumber_of_ne (h : ∀ c ∈ s.head?, c ≠ '-') : takeNumber s = takeUnsigned false s := by
  cases s with
  | nil => rfl
  | cons c s =>
    have hc : c ≠ '-' := h c rfl
    unfold takeNumber
    split
    · next hsign =>
      split at hsign
      · next heq => exact absurd (List.cons.inj heq).1 hc
      · cases hsign
        rfl

/-- Where an exponent begins or no number goes on, no fraction goes on. -/
theorem stops_exponent {rest' : List Char} (hmark : ∀ c ∈ part.head?, c = 'e' ∨ c = 'E')
    (hrest' : Text.Stops inScalar rest') :
    Text.Stops (fun c => c.isDigit || c == '.') (part ++ rest') := by
  intro c hc
  cases part with
  | nil =>
    have hscalar := hrest' c hc
    simp only [inScalar, Char.isAlphanum, Bool.or_eq_false_iff] at hscalar
    simp [hscalar]
  | cons mark others =>
    cases hc
    rcases hmark c rfl with rfl | rfl <;> decide

/-- Where a fraction begins or does not go on, no digits go on. -/
theorem stops_fraction {rest' : List Char} (hpoint : ∀ c ∈ part.head?, c = '.')
    (hrest' : Text.Stops (fun c => c.isDigit || c == '.') rest') :
    Text.Stops Char.isDigit (part ++ rest') := by
  intro c hc
  cases part with
  | nil => exact (Bool.or_eq_false_iff.mp (hrest' c hc)).1
  | cons point others =>
    cases hc
    obtain rfl := hpoint c rfl
    decide

/-- A number behind its sign goes as far as it can. -/
theorem takeUnsigned_eq_some (h : takeUnsigned negative s = some (v, rest)) :
    ∃ part, s = part ++ rest ∧ (∃ d others, part = d :: others ∧ d.isDigit) ∧
      (∀ c ∈ part, inScalar c) ∧
      ∀ rest', Text.Stops inScalar rest' → takeUnsigned negative (part ++ rest') = some (v, rest') := by
  unfold takeUnsigned at h
  split at h
  · cases h
  next whole afterWhole hwhole =>
  obtain ⟨rfl, ⟨d, digits, hfirst, hd⟩, hwhole', htakeWhole⟩ := takeWhole_eq_some hwhole
  cases hfraction : takeFraction afterWhole with
  | mk fraction afterFraction =>
  obtain ⟨fractionPart, rfl, hpoint, hfraction', htakeFraction⟩ := takeFraction_eq hfraction
  cases hexponent : takeExponent afterFraction with
  | mk exponent afterExponent =>
  obtain ⟨exponentPart, rfl, hmark, hexponent', htakeExponent⟩ := takeExponent_eq hexponent
  have hrest : afterExponent = rest := by
    simp only [hfraction, hexponent] at h
    split at h <;> cases h <;> rfl
  subst hrest
  refine ⟨whole ++ fractionPart ++ exponentPart, by simp, ⟨d, _, by rw [hfirst]; rfl, hd⟩, ?_,
    fun rest' hrest' => ?_⟩
  · simp only [List.forall_mem_append]
    exact ⟨⟨hwhole', hfraction'⟩, hexponent'⟩
  · -- Each part is followed by the mark of the next, or by what goes on with no number at all.
    have hbehindFraction := stops_exponent hmark hrest'
    have hbehindWhole := stops_fraction hpoint hbehindFraction
    simp only [hfraction, hexponent] at h
    rw [List.append_assoc, List.append_assoc, takeUnsigned, htakeWhole _ hbehindWhole]
    dsimp only
    rw [htakeFraction _ hbehindFraction]
    dsimp only
    rw [htakeExponent _ hrest']
    dsimp only
    split at h
    · next hall =>
      cases h
      rw [if_pos hall]
    · next hall =>
      cases h
      rw [if_neg hall]

/-- The literals and what they stand for. -/
def literals : List (String × Json) :=
  [("null", .null), ("true", .bool true), ("false", .bool false), ("NaN", .float (0.0 / 0.0)),
    ("Infinity", .float (1.0 / 0.0)), ("-Infinity", .float (-1.0 / 0.0))]

/-- A fixed beginning is dropped where a text begins so. -/
theorem dropWord_eq_some {word : String} :
    dropWord word s = some rest ↔ s = word.toList ++ rest := by
  rw [dropWord]
  constructor
  · intro h
    split at h
    · next hprefix =>
      cases h
      exact (List.prefix_iff_eq_append.mp (List.isPrefixOf_iff_prefix.mp hprefix)).symm
    · cases h
  · rintro rfl
    rw [if_pos (List.isPrefixOf_iff_prefix.mpr (List.prefix_append _ _)), List.drop_left]

/-- A scalar is the first literal that the text begins with, or else a number. -/
theorem takeScalar_eq (s : List Char) :
    takeScalar s =
      (literals.findSome? fun literal =>
        (dropWord literal.1 s).map fun rest => (literal.2, rest)).or (takeNumber s) := by
  simp only [takeScalar, literals, List.findSome?_cons, List.findSome?_nil]
  cases dropWord "null" s <;> cases dropWord "true" s <;> cases dropWord "false" s <;>
    cases dropWord "NaN" s <;> cases dropWord "Infinity" s <;> cases dropWord "-Infinity" s <;> rfl

/-- The reader takes a literal. -/
theorem takeScalar_literal {literal : String × Json} (h : literal ∈ literals) (rest : List Char) :
    takeScalar (literal.1.toList ++ rest) = some (literal.2, rest) := by
  simp only [literals, List.mem_cons, List.not_mem_nil, or_false] at h
  rcases h with rfl | rfl | rfl | rfl | rfl | rfl <;> rfl

/-- A literal consists of the characters of literals. -/
theorem inScalar_of_mem_literal {literal : String × Json} (h : literal ∈ literals) :
    literal.1.toList ≠ [] ∧ ∀ c ∈ literal.1.toList, inScalar c := by
  simp only [literals, List.mem_cons, List.not_mem_nil, or_false] at h
  rcases h with rfl | rfl | rfl | rfl | rfl | rfl <;>
    exact ⟨by decide, List.all_eq_true.mp (by decide)⟩

/-- What the reader takes is a literal or a number. -/
theorem takeScalar_eq_some (h : takeScalar s = some (v, rest)) :
    (∃ literal ∈ literals, s = literal.1.toList ++ rest ∧ literal.2 = v) ∨
      takeNumber s = some (v, rest) := by
  rw [takeScalar_eq, Option.or_eq_some_iff] at h
  refine h.imp (fun hliteral => ?_) And.right
  obtain ⟨literal, hmem, hword⟩ := List.exists_of_findSome?_eq_some hliteral
  obtain ⟨rest, hrest, heq⟩ := Option.map_eq_some_iff.mp hword
  cases heq
  exact ⟨literal, hmem, dropWord_eq_some.mp hrest, rfl⟩

/-- No literal begins as a number does. -/
theorem takeScalar_of_digit (h : (∃ d others, s = d :: others ∧ d.isDigit) ∨
    ∃ d others, s = '-' :: d :: others ∧ d.isDigit) : takeScalar s = takeNumber s := by
  have hletters : ∀ literal ∈ literals, ∃ a b others, literal.1.toList = a :: b :: others ∧
      ¬ a.isDigit ∧ ¬ b.isDigit := by
    intro literal hmem
    simp only [literals, List.mem_cons, List.not_mem_nil, or_false] at hmem
    rcases hmem with rfl | rfl | rfl | rfl | rfl | rfl <;>
      exact ⟨_, _, _, rfl, by decide, by decide⟩
  have hnone : literals.findSome? (fun literal =>
      (dropWord literal.1 s).map fun rest => (literal.2, rest)) = none := by
    refine List.findSome?_eq_none_iff.mpr fun literal hmem => ?_
    refine Option.map_eq_none_iff.mpr (Option.eq_none_iff_forall_ne_some.mpr fun rest hrest => ?_)
    obtain ⟨a, b, others, hletters, ha, hb⟩ := hletters literal hmem
    rw [dropWord_eq_some, hletters] at hrest
    rcases h with ⟨d, digits, rfl, hd⟩ | ⟨d, digits, rfl, hd⟩
    · exact ha ((List.cons.inj hrest).1 ▸ hd)
    · exact hb ((List.cons.inj (List.cons.inj hrest).2).1 ▸ hd)
  rw [takeScalar_eq, hnone, Option.none_or]

/-- A literal or a number as it is written: the reader takes it wherever it could not go on. -/
structure Scalar where
  text : List Char
  value : Json
  text_ne_nil : text ≠ []
  inScalar_of_mem : ∀ c ∈ text, inScalar c
  takeScalar_append : ∀ rest, Text.Stops inScalar rest → takeScalar (text ++ rest) = some (value, rest)

/-- What the reader takes is written as a literal or a number. -/
theorem Scalar.exists_of_takeScalar (h : takeScalar s = some (v, rest)) :
    ∃ scalar : Scalar, s = scalar.text ++ rest ∧ scalar.value = v := by
  rcases takeScalar_eq_some h with ⟨literal, hmem, rfl, rfl⟩ | h
  · obtain ⟨hne, hall⟩ := inScalar_of_mem_literal hmem
    exact ⟨⟨literal.1.toList, literal.2, hne, hall, fun rest _ => takeScalar_literal hmem rest⟩,
      rfl, rfl⟩
  by_cases hminus : ∃ unsigned, s = '-' :: unsigned
  · obtain ⟨unsigned, rfl⟩ := hminus
    obtain ⟨part, rfl, ⟨d, others, hfirst, hd⟩, hall, htake⟩ := takeUnsigned_eq_some h
    refine ⟨⟨'-' :: part, v, by simp, List.forall_mem_cons.mpr ⟨rfl, hall⟩, fun rest hrest => ?_⟩,
      rfl, rfl⟩
    rw [takeScalar_of_digit (.inr ⟨d, others ++ rest, by rw [hfirst]; rfl, hd⟩)]
    exact htake rest hrest
  · rw [takeNumber_of_ne] at h
    · obtain ⟨part, rfl, ⟨d, others, hfirst, hd⟩, hall, htake⟩ := takeUnsigned_eq_some h
      refine ⟨⟨part, v, by simp [hfirst], hall, fun rest hrest => ?_⟩, rfl, rfl⟩
      have hbegin : part ++ rest = d :: (others ++ rest) := by rw [hfirst]; rfl
      rw [takeScalar_of_digit (.inl ⟨d, _, hbegin, hd⟩), takeNumber_of_ne]
      · exact htake rest hrest
      · rw [hbegin]
        rintro c hc rfl
        cases hc
        exact absurd hd (by decide)
    · rintro c hc rfl
      obtain ⟨unsigned, rfl⟩ := List.head?_eq_some_iff.mp hc
      exact hminus ⟨unsigned, rfl⟩

end ImportAtlas.Json
