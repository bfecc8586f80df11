import Mathlib.Tactic.Common
import ImportAtlas.Import.Rule
import ImportAtlas.Proofs.Pattern.Language
import ImportAtlas.Proofs.Text.Runs

/-!
# Skimming up to a literal

The parts of a rule before its literal take no quote, except in a list in braces, and a list ends
with its first closing brace. So a rule that reads a literal reads the first one of its text that
stands in no list, whatever the rule asks for before it.
-/

namespace ImportAtlas

open Pattern

open scoped Text.AlongRun

namespace ImportRule

/-- The code points of the blanks. -/
def blankCodes : List ℕ :=
  List.range' 9 5 ++ List.range' 28 5 ++ [0x85, 0xA0, 0x1680] ++ List.range' 0x2000 11 ++
    [0x2028, 0x2029, 0x202F, 0x205F, 0x3000]

/-- No blank can stand in a name. -/
theorem inName_of_isBlank {c : Char} (h : Text.isBlank c) : inName c = false := by
  have hcode : c.toNat ∈ blankCodes := by
    simp only [Text.isBlank, Bool.or_eq_true, Bool.and_eq_true, decide_eq_true_eq, beq_iff_eq] at h
    simp only [blankCodes, List.mem_append, List.mem_range'_1, List.mem_cons, List.not_mem_nil]
    omega
  have hnone : ∀ n ∈ blankCodes, inName (Char.ofNat n) = false := by decide +kernel
  rw [← Char.ofNat_toNat c]
  exact hnone _ hcode

/-- A character of a name is no blank. -/
theorem isBlank_of_inName {c : Char} (h : inName c) : Text.isBlank c = false := by
  by_contra hblank
  rw [inName_of_isBlank (Bool.not_eq_false _ ▸ hblank)] at h
  cases h

/-- What is left of a text from its first quote on, or from a closing brace that was not opened.
Lists in braces are passed over; the flag tells whether one is open. -/
def skim : Bool → List Char → List Char
  | _, [] => []
  | true, c :: rest => skim (c != '\x7d') rest
  | false, c :: rest => if isQuote c || c == '\x7d' then c :: rest else skim (c == '\x7b') rest

/-- A stretch without quotes outside of braces. -/
def IsSkimmed (s : List Char) : Prop := ∀ rest, skim false (s ++ rest) = skim false rest

/-- The characters that end a skimmed text or change how it is read. -/
def signs : List Char := ['\x27', '\x22', '\x60', '\x7b', '\x7d']

/-- The empty text. -/
theorem IsSkimmed.nil : IsSkimmed [] := fun _ => rfl

/-- One stretch after the other. -/
theorem IsSkimmed.append {s t : List Char} (hs : IsSkimmed s) (ht : IsSkimmed t) :
    IsSkimmed (s ++ t) := fun rest => by rw [List.append_assoc, hs, ht]

/-- A text without quotes and braces. -/
theorem isSkimmed_of_notMem {s : List Char} (hs : ∀ c ∈ s, c ∉ signs) : IsSkimmed s := by
  intro rest
  induction s with
  | nil => rfl
  | cons c s ih =>
    obtain ⟨hc, hs⟩ := List.forall_mem_cons.mp hs
    simp only [signs, List.mem_cons, List.not_mem_nil, or_false, not_or] at hc
    obtain ⟨hsingle, hdouble, hback, hopen, hclose⟩ := hc
    rw [List.cons_append, skim, if_neg (by simp [isQuote, hsingle, hdouble, hback, hclose]),
      beq_eq_false_iff_ne.mpr hopen, ih hs]

/-- In braces, a text goes on behind the first closing brace. -/
theorem skim_true_append {s : List Char} (hs : ∀ c ∈ s, c ≠ '\x7d') (rest : List Char) :
    skim true (s ++ '\x7d' :: rest) = skim false rest := by
  induction s with
  | nil => rfl
  | cons c s ih =>
    obtain ⟨hc, hs⟩ := List.forall_mem_cons.mp hs
    rw [List.cons_append, skim, bne_iff_ne.mpr hc, ih hs]

/-- A list in braces. -/
theorem isSkimmed_braces {s : List Char} (hs : ∀ c ∈ s, c ≠ '\x7d') :
    IsSkimmed ('\x7b' :: (s ++ ['\x7d'])) := by
  intro rest
  have hopen : skim false ('\x7b' :: (s ++ '\x7d' :: rest)) = skim true (s ++ '\x7d' :: rest) := rfl
  rw [List.cons_append, List.append_assoc, List.singleton_append, hopen, skim_true_append hs]

end ImportRule

namespace Pattern

open ImportRule

/-- A pattern that captures nothing and takes no quote outside of braces. -/
def Skims (p : Pattern) : Prop :=
  ∀ ⦃left s right gs⦄, p.Accepts left s right gs → gs = [] ∧ IsSkimmed s

/-- A pattern that takes a text up to a literal, the literal, of which it captures what is quoted,
and what another pattern accepts behind it. -/
def Reads (p tail : Pattern) : Prop :=
  ∀ ⦃left s right gs⦄, p.Accepts left s right gs → ∃ head q inner q' left' after,
    s = head ++ q :: (inner ++ q' :: after) ∧ IsSkimmed head ∧ isQuote q ∧ isQuote q' ∧
      (∀ c ∈ inner, inSpecifier c) ∧ gs = [inner] ∧ tail.Accepts left' after right []

section Skims

variable {p q tail : Pattern} {ps : List Pattern} {belongs : Char → Bool}

/-- The empty text. -/
theorem skims_empty : Skims .empty := by
  rintro left s right gs ⟨rfl, rfl⟩
  exact ⟨rfl, .nil⟩

/-- One pattern after the other. -/
theorem Skims.seq (hp : p.Skims) (hq : q.Skims) : (Pattern.seq p q).Skims := by
  rintro left s right gs ⟨s, t, gs, hs, rfl, rfl, hfirst, hsecond⟩
  obtain ⟨rfl, hs⟩ := hp hfirst
  obtain ⟨rfl, ht⟩ := hq hsecond
  exact ⟨rfl, hs.append ht⟩

/-- The first pattern, or else the second. -/
theorem Skims.alt (hp : p.Skims) (hq : q.Skims) : (Pattern.alt p q).Skims := by
  rintro left s right gs (hfirst | hsecond)
  · exact hp hfirst
  · exact hq hsecond

/-- A pattern or nothing. -/
theorem Skims.optional (hp : p.Skims) : (Pattern.optional p).Skims := hp.alt skims_empty

/-- The start of a line. -/
@[simp]
theorem skims_lineStart : Skims .lineStart := by
  rintro left s right gs ⟨-, rfl, rfl⟩
  exact ⟨rfl, .nil⟩

/-- A character of a class without quotes and braces. -/
theorem skims_one (h : ∀ c ∈ signs, belongs c = false) : Skims (.one belongs) := by
  rintro left s right gs ⟨⟨c, hc, rfl⟩, rfl⟩
  refine ⟨rfl, isSkimmed_of_notMem fun d hd hsign => ?_⟩
  rw [← List.mem_singleton.mp hd, h d hsign] at hc
  cases hc

/-- A fixed character, no quote and no brace. -/
@[simp]
theorem skims_mark {c : Char} (h : c ∉ signs) : (mark c).Skims :=
  skims_one fun _ hd => beq_eq_false_iff_ne.mpr (ne_of_mem_of_not_mem hd h)

/-- A run of a class without quotes and braces. -/
theorem skims_many (h : ∀ c ∈ signs, belongs c = false) : Skims (.many belongs) := by
  rintro left s right gs ⟨hs, rfl⟩
  refine ⟨rfl, isSkimmed_of_notMem fun c hc hsign => ?_⟩
  exact absurd (hs c hc) (by simp [h c hsign])

/-- One or more characters of a class without quotes and braces. -/
theorem skims_some (h : ∀ c ∈ signs, belongs c = false) : Skims (.some belongs) :=
  (skims_one h).seq (skims_many h)

/-- A word without quotes and braces. -/
@[simp]
theorem skims_word {w : String} (h : ∀ c ∈ w.toList, c ∉ signs) : Skims (word w) := by
  intro left s right gs hs
  obtain ⟨rfl, rfl⟩ := accepts_text.mp hs
  exact ⟨rfl, isSkimmed_of_notMem h⟩

/-- A list in braces. -/
@[simp]
theorem skims_braces : Skims braces := by
  rintro left s right gs ⟨s, t, gs, hs, rfl, rfl, ⟨⟨c, hc, rfl⟩, rfl⟩, s, t, gs, hs, rfl, rfl,
    ⟨hbody, rfl⟩, t, u, gs, hs, rfl, rfl, ⟨⟨d, hd, rfl⟩, rfl⟩, rfl, rfl⟩
  rw [beq_iff_eq.mp hc, beq_iff_eq.mp hd]
  exact ⟨rfl, isSkimmed_braces fun c hc => by simpa using hbody c hc⟩

/-- Patterns one after the other. -/
theorem skims_all {ps : List Pattern} (h : ∀ p ∈ ps, p.Skims) : (all ps).Skims := by
  induction ps with
  | nil => exact skims_empty
  | cons p ps ih =>
    obtain ⟨hp, hps⟩ := List.forall_mem_cons.mp h
    exact Skims.seq hp (ih hps)

/-- The first of several patterns. -/
theorem skims_firstOf {ps : List Pattern} (h : ∀ p ∈ ps, p.Skims) : (firstOf ps).Skims := by
  intro left s right gs hs
  obtain ⟨p, hp, hs⟩ := accepts_firstOf.mp hs
  exact h p hp hs

/-- Blanks, or none. -/
@[simp]
theorem skims_blanks : blanks.Skims := skims_many (by decide)

/-- At least one blank. -/
@[simp]
theorem skims_gap : gap.Skims := skims_some (by decide)

/-- A name. -/
@[simp]
theorem skims_name : name.Skims := skims_some (by decide)

/-- A star bound to a name. -/
@[simp]
theorem skims_namespaceBinding : namespaceBinding.Skims := skims_all (by simp (disch := decide))

end Skims

section Reads

variable {p q tail : Pattern}

/-- A literal is read as a quote, some content without quotes and line breaks, which is captured, and
a quote. -/
theorem exists_of_quoted {left s right : List Char} {gs : List (List Char)}
    (h : quoted.Accepts left s right gs) : ∃ q inner q', s = q :: (inner ++ [q']) ∧ isQuote q ∧
      isQuote q' ∧ inner ≠ [] ∧ (∀ c ∈ inner, inSpecifier c) ∧ gs = [inner] := by
  obtain ⟨s, t, gs, hs, rfl, rfl, ⟨⟨q, hq, rfl⟩, rfl⟩, inner, t, gs, hs, rfl, rfl, ⟨gs', hinner, rfl⟩,
    t, u, gs, hs, rfl, rfl, ⟨⟨q', hq', rfl⟩, rfl⟩, rfl, rfl⟩ := h
  obtain ⟨hne, hcontent, rfl⟩ := accepts_some.mp hinner
  exact ⟨q, inner, q', rfl, hq, hq', hne, hcontent, rfl⟩

/-- A literal. -/
theorem reads_quoted : quoted.Reads .empty := by
  intro left s right gs h
  obtain ⟨q, inner, q', rfl, hq, hq', -, hcontent, rfl⟩ := exists_of_quoted h
  exact ⟨[], q, inner, q', [], [], rfl, .nil, hq, hq', hcontent, rfl, rfl, rfl⟩

/-- What is skimmed before a literal belongs to the text up to it. -/
theorem Reads.seq (hq : q.Reads tail) (hp : p.Skims) : (Pattern.seq p q).Reads tail := by
  rintro left s right gs ⟨s, t, gs, hs, rfl, rfl, hfirst, hsecond⟩
  obtain ⟨rfl, hs⟩ := hp hfirst
  obtain ⟨head, q, inner, q', left', after, rfl, hhead, hrest⟩ := hq hsecond
  exact ⟨s ++ head, q, inner, q', left', after, by rw [List.append_assoc], hs.append hhead, hrest⟩

/-- What is accepted behind a literal is left to its pattern. -/
theorem Reads.seq_tail (hp : p.Reads .empty) (htail : tail.isSilent) :
    (Pattern.seq p tail).Reads tail := by
  rintro left s right gs ⟨s, t, gs, hs, rfl, rfl, hfirst, hsecond⟩
  obtain ⟨head, q, inner, q', left', after, rfl, hhead, hq, hq', hinner, rfl, rfl, -⟩ := hp hfirst
  obtain rfl := eq_nil_of_isSilent htail hsecond
  exact ⟨head, q, inner, q', _, t, by simp, hhead, hq, hq', hinner, by simp, hsecond⟩

/-- Patterns one after the other, one of which takes a literal. -/
theorem reads_all (ps qs : List Pattern) (hps : ∀ p ∈ ps, p.Skims) (hq : q.Reads .empty)
    (htail : (all qs).isSilent) : (all (ps ++ q :: qs)).Reads (all qs) := by
  induction ps with
  | nil => exact hq.seq_tail htail
  | cons p ps ih =>
    obtain ⟨hp, hps⟩ := List.forall_mem_cons.mp hps
    exact (ih hps).seq hp

/-- The last of the patterns takes a literal. -/
theorem reads_all_last (ps : List Pattern) (hps : ∀ p ∈ ps, p.Skims) (hq : q.Reads .empty) :
    (all (ps ++ [q])).Reads .empty := reads_all ps [] hps hq rfl

/-- The word before a literal and the literal. -/
theorem reads_fromQuoted : fromQuoted.Reads .empty :=
  reads_all_last [blanks, word "from", blanks] (by simp (disch := decide)) reads_quoted

/-- The word before a literal, set off by a blank, and the literal. -/
theorem reads_gapFromQuoted : gapFromQuoted.Reads .empty :=
  reads_all_last [gap, word "from", blanks] (by simp (disch := decide)) reads_quoted

end Reads

end Pattern

end ImportAtlas
