import Mathlib.Data.List.TakeWhile
import ImportAtlas.Glob.Braces
import ImportAtlas.Proofs.Text.Splitting

/-!
# What groups in braces stand for

A pattern with groups is built from plain texts, which may follow each other and be members of
groups, to any depth. It stands for a set of texts, which its parts determine. Groups are replaced
from the inside and from the left, in an order unlike that of the parts: a member that holds a group
is replaced while the group around it is still open. The texts that come out are those that the
pattern stands for, because an open group before a part does not change what becomes of the part.
-/

namespace ImportAtlas.Glob

/-- A text in which an opening brace is followed by a closing one, without a brace in between. -/
def HoldsGroup (s : List Char) : Prop :=
  ∃ head body tail, s = head ++ '\x7b' :: (body ++ '\x7d' :: tail) ∧ ∀ c ∈ body, notBrace c

/-- A character opens a group if it is an opening brace and the next brace closes it. -/
def OpensGroup (c : Char) (rest : List Char) : Prop :=
  c = '\x7b' ∧ (rest.dropWhile notBrace).head? = some '\x7d'

section FirstGroup

variable {s head body tail rest : List Char} {c : Char} {g : Group}

/-- A group that begins a pattern is its first one. -/
theorem firstGroup?_of_opensGroup (h : OpensGroup c rest) :
    ∃ tail, c = '\x7b' ∧ rest.dropWhile notBrace = '\x7d' :: tail ∧
      firstGroup? (c :: rest) = some ⟨[], rest.takeWhile notBrace, tail⟩ := by
  obtain ⟨rfl, hclosed⟩ := h
  obtain ⟨tail, htail⟩ := List.head?_eq_some_iff.mp hclosed
  refine ⟨tail, rfl, htail, ?_⟩
  unfold firstGroup?
  rw [htail]
  rfl

/-- Otherwise the first group is that of the rest. -/
theorem firstGroup?_cons (h : ¬ OpensGroup c rest) :
    firstGroup? (c :: rest) = (firstGroup? rest).map fun g => { g with head := c :: g.head } := by
  conv_lhs => unfold firstGroup?
  split
  · next tail hclosed => exact absurd ⟨rfl, by rw [hclosed]; rfl⟩ h
  · rfl

/-- Where no group is found, the first character opens none and the rest holds none. -/
theorem firstGroup?_cons_eq_none (h : firstGroup? (c :: rest) = none) :
    ¬ OpensGroup c rest ∧ firstGroup? rest = none := by
  by_cases hopens : OpensGroup c rest
  · obtain ⟨tail, -, -, hgroup⟩ := firstGroup?_of_opensGroup hopens
    cases hgroup.symm.trans h
  · exact ⟨hopens, Option.map_eq_none_iff.mp ((firstGroup?_cons hopens).symm.trans h)⟩

/-- The first group is a part of the pattern, and no brace is in it. -/
theorem eq_of_firstGroup? (h : firstGroup? s = some g) :
    s = g.head ++ '\x7b' :: (g.body ++ '\x7d' :: g.tail) ∧ ∀ c ∈ g.body, notBrace c := by
  induction s generalizing g with
  | nil => cases h
  | cons c rest ih =>
    by_cases hopens : OpensGroup c rest
    · obtain ⟨tail, rfl, hrest, hgroup⟩ := firstGroup?_of_opensGroup hopens
      cases hgroup.symm.trans h
      refine ⟨?_, fun c hc => List.mem_takeWhile_imp hc⟩
      rw [← hrest, List.takeWhile_append_dropWhile]
      rfl
    · obtain ⟨inner, hinner, rfl⟩ :=
        Option.map_eq_some_iff.mp ((firstGroup?_cons hopens).symm.trans h)
      obtain ⟨hsplit, hbody⟩ := ih hinner
      exact ⟨congrArg (c :: ·) hsplit, hbody⟩

/-- The first character that is a brace, in a text that goes on. -/
theorem head?_dropWhile_append (s t : List Char) :
    ((s ++ t).dropWhile notBrace).head? =
      (s.dropWhile notBrace).head?.or (t.dropWhile notBrace).head? := by
  induction s with
  | nil => rfl
  | cons c s ih =>
    rw [List.cons_append, List.dropWhile_cons, List.dropWhile_cons]
    split
    · exact ih
    · rfl

/-- A character that opens no group opens none in a text that goes on without closing one first. -/
theorem not_opensGroup_append (h : ¬ OpensGroup c s) {t : List Char}
    (ht : (t.dropWhile notBrace).head? ≠ some '\x7d') : ¬ OpensGroup c (s ++ t) := by
  rintro ⟨rfl, hclosed⟩
  rw [head?_dropWhile_append] at hclosed
  cases hnext : (s.dropWhile notBrace).head? with
  | none => exact ht (by rwa [hnext] at hclosed)
  | some d =>
    rw [hnext, Option.some_or] at hclosed
    exact h ⟨rfl, hnext.trans hclosed⟩

/-- Where there is no group before it, a group is the first one. -/
theorem firstGroup?_append_group (hhead : firstGroup? head = none)
    (hbody : ∀ c ∈ body, notBrace c) (tail : List Char) :
    firstGroup? (head ++ '\x7b' :: (body ++ '\x7d' :: tail)) = some ⟨head, body, tail⟩ := by
  induction head with
  | nil =>
    have hdrop : (body ++ '\x7d' :: tail).dropWhile notBrace = '\x7d' :: tail := by
      rw [List.dropWhile_append_of_pos hbody]
      rfl
    have htake : (body ++ '\x7d' :: tail).takeWhile notBrace = body := by
      rw [List.takeWhile_append_of_pos hbody]
      exact List.append_nil body
    rw [List.nil_append, firstGroup?, htake]
    exact hdrop
  | cons c head ih =>
    obtain ⟨hopens, hhead⟩ := firstGroup?_cons_eq_none hhead
    have hstill : ¬ OpensGroup c (head ++ '\x7b' :: (body ++ '\x7d' :: tail)) :=
      not_opensGroup_append hopens (by simp [notBrace])
    rw [List.cons_append, firstGroup?_cons hstill, ih hhead]
    rfl

/-- A group is found exactly where a text holds one. -/
theorem firstGroup?_eq_none_iff : firstGroup? s = none ↔ ¬ HoldsGroup s := by
  constructor
  · rintro h ⟨head, body, tail, rfl, hbody⟩
    induction head with
    | nil => cases (firstGroup?_append_group rfl hbody tail).symm.trans h
    | cons c head ih => exact ih (firstGroup?_cons_eq_none h).2
  · intro h
    cases hgroup : firstGroup? s with
    | none => rfl
    | some g => exact absurd ⟨g.head, g.body, g.tail, eq_of_firstGroup? hgroup⟩ h

/-- No group comes about where no brace is closed. -/
theorem firstGroup?_append {t : List Char} (hs : firstGroup? s = none) (ht : '\x7d' ∉ t) :
    firstGroup? (s ++ t) = none := by
  induction s with
  | nil =>
    rw [List.nil_append, firstGroup?_eq_none_iff]
    rintro ⟨head, body, tail, rfl, -⟩
    exact ht (by simp)
  | cons c s ih =>
    obtain ⟨hopens, hs⟩ := firstGroup?_cons_eq_none hs
    have hnext : (t.dropWhile notBrace).head? ≠ some '\x7d' := fun hclosed =>
      ht ((List.dropWhile_sublist notBrace).subset (List.mem_of_head? hclosed))
    rw [List.cons_append, firstGroup?_cons (not_opensGroup_append hopens hnext), ih hs]
    rfl

end FirstGroup

/-- A pattern becomes another if a member takes the place of its leftmost group. -/
def Becomes (pattern next : List Char) : Prop :=
  ∃ g, firstGroup? pattern = some g ∧ ∃ member ∈ Text.splitAt ',' g.body,
    next = g.head ++ member ++ g.tail

section Expanding

variable {pattern next r : List Char} {g : Group}

/-- Replacing a group takes an opening brace away. -/
theorem Becomes.count_lt (h : Becomes pattern next) :
    next.count '\x7b' < pattern.count '\x7b' := by
  obtain ⟨g, hgroup, member, hmember, rfl⟩ := h
  obtain ⟨hsplit, hbody⟩ := eq_of_firstGroup? hgroup
  have hopen : '\x7b' ∉ g.body := fun hopen => by cases hbody _ hopen
  have hplain : member.count '\x7b' = 0 :=
    List.count_eq_zero.mpr fun hmem => hopen (Text.mem_of_mem_splitAt hmember hmem)
  rw [hsplit]
  simp [hplain, List.count_eq_zero.mpr hopen]

/-- Groups cannot be replaced for ever. -/
theorem becomes_wellFounded : WellFounded fun next pattern => Becomes pattern next :=
  Subrelation.wf Becomes.count_lt (measure (List.count '\x7b')).wf

/-- The number that bounds the replacements does not matter if it is at least that of the opening
braces. -/
theorem expandUpTo_eq {bound bound' : ℕ} (h : pattern.count '\x7b' ≤ bound)
    (h' : pattern.count '\x7b' ≤ bound') :
    expandUpTo bound pattern = expandUpTo bound' pattern := by
  induction bound generalizing bound' pattern with
  | zero =>
    cases bound' with
    | zero => rfl
    | succ bound' =>
      cases hgroup : firstGroup? pattern with
      | none => rw [expandUpTo, expandUpTo, hgroup]
      | some g =>
        have hlt := Becomes.count_lt ⟨g, hgroup, _, List.head_mem (Text.splitAt_ne_nil _ _), rfl⟩
        omega
  | succ bound ih =>
    cases hgroup : firstGroup? pattern with
    | none => cases bound' <;> rw [expandUpTo, expandUpTo, hgroup]
    | some g =>
      have hlt {member : List Char} (hmember : member ∈ Text.splitAt ',' g.body) :=
        Becomes.count_lt ⟨g, hgroup, member, hmember, rfl⟩
      cases bound' with
      | zero =>
        have := hlt (List.head_mem (Text.splitAt_ne_nil _ _))
        omega
      | succ bound' =>
        simp only [expandUpTo, hgroup]
        refine List.flatMap_congr fun member hmember => ?_
        have := hlt hmember
        exact ih (by omega) (by omega)

/-- A pattern without a group stands for itself. -/
theorem expandBraces_of_none (h : firstGroup? pattern = none) : expandBraces pattern = [pattern] := by
  rw [expandBraces]
  cases pattern.count '\x7b' with
  | zero => rfl
  | succ n => rw [expandUpTo, h]

/-- A pattern with a group stands for what the patterns with a member in its place stand for. -/
theorem expandBraces_of_some (h : firstGroup? pattern = some g) :
    expandBraces pattern = (Text.splitAt ',' g.body).flatMap fun member =>
      expandBraces (g.head ++ member ++ g.tail) := by
  have hlt {member : List Char} (hmember : member ∈ Text.splitAt ',' g.body) :=
    Becomes.count_lt ⟨g, h, member, hmember, rfl⟩
  have hopen := hlt (List.head_mem (Text.splitAt_ne_nil ',' g.body))
  obtain ⟨n, hn⟩ : ∃ n, pattern.count '\x7b' = n + 1 := Nat.exists_eq_add_one.mpr (by omega)
  rw [expandBraces, hn, expandUpTo, h]
  refine List.flatMap_congr fun member hmember => ?_
  have := hlt hmember
  exact expandUpTo_eq (by omega) (Nat.le_refl _)

/-- No group is left in what a pattern stands for. -/
theorem not_holdsGroup_of_mem_expandBraces (h : r ∈ expandBraces pattern) : ¬ HoldsGroup r := by
  induction pattern using becomes_wellFounded.induction with
  | _ pattern ih =>
    cases hgroup : firstGroup? pattern with
    | none =>
      rw [expandBraces_of_none hgroup, List.mem_singleton] at h
      exact firstGroup?_eq_none_iff.mp (h ▸ hgroup)
    | some g =>
      rw [expandBraces_of_some hgroup, List.mem_flatMap] at h
      obtain ⟨member, hmember, hr⟩ := h
      exact ih _ ⟨g, hgroup, member, hmember, rfl⟩ hr

end Expanding

/-- A pattern with groups, by its parts. Given is whether it stands inside a group, where a comma
would part members. -/
inductive Alternation : Bool → Type where
  /-- A text that stands for itself. -/
  | literal {inside : Bool} (s : List Char) (plain : ∀ c ∈ s, notBrace c)
    (whole : inside → ',' ∉ s) : Alternation inside
  /-- Two patterns one after the other. -/
  | append {inside : Bool} (first second : Alternation inside) : Alternation inside
  /-- A group with at least one member. -/
  | group {inside : Bool} (first : Alternation true) (others : List (Alternation true)) :
    Alternation inside

namespace Alternation

mutual

/-- The pattern as it is written. -/
def text : {inside : Bool} → Alternation inside → List Char
  | _, .literal s _ _ => s
  | _, .append first second => first.text ++ second.text
  | _, .group first others => '\x7b' :: (first.text ++ textBehind others ++ ['\x7d'])
termination_by structural _ p => p

/-- The further members of a group as they are written, each behind a comma. -/
def textBehind : List (Alternation true) → List Char
  | [] => []
  | member :: others => ',' :: (member.text ++ textBehind others)
termination_by structural members => members

end

mutual

/-- The texts that a pattern stands for: one of each part of it, and one of the members of a
group. -/
def choices : {inside : Bool} → Alternation inside → List (List Char)
  | _, .literal s _ _ => [s]
  | _, .append first second =>
    first.choices.flatMap fun s => second.choices.map fun t => s ++ t
  | _, .group first others => first.choices ++ choicesAmong others
termination_by structural _ p => p

/-- The texts that members of a group stand for. -/
def choicesAmong : List (Alternation true) → List (List Char)
  | [] => []
  | member :: others => member.choices ++ choicesAmong others
termination_by structural members => members

end

mutual

/-- There are no braces in the texts that a pattern stands for, and no commas in those of a
member. -/
theorem plain_of_mem_choices : ∀ {inside : Bool} (p : Alternation inside) {s : List Char},
    s ∈ p.choices → (∀ c ∈ s, notBrace c) ∧ (inside → ',' ∉ s)
  | _, .literal t plain whole, s, h => by
    rw [choices, List.mem_singleton] at h
    exact h ▸ ⟨plain, whole⟩
  | _, .append first second, s, h => by
    rw [choices, List.mem_flatMap] at h
    obtain ⟨left, hleft, hmem⟩ := h
    obtain ⟨right, hright, rfl⟩ := List.mem_map.mp hmem
    obtain ⟨hplain, hwhole⟩ := plain_of_mem_choices first hleft
    obtain ⟨hplain', hwhole'⟩ := plain_of_mem_choices second hright
    refine ⟨List.forall_mem_append.mpr ⟨hplain, hplain'⟩, fun hinside hcomma => ?_⟩
    exact (List.mem_append.mp hcomma).elim (hwhole hinside) (hwhole' hinside)
  | _, .group first others, s, h => by
    have hmember : (∀ c ∈ s, notBrace c) ∧ ',' ∉ s := by
      rw [choices, List.mem_append] at h
      rcases h with hfirst | hothers
      · exact (plain_of_mem_choices first hfirst).imp_right fun hwhole => hwhole rfl
      · exact plain_of_mem_choicesAmong others hothers
    exact hmember.imp_right fun hwhole _ => hwhole
termination_by structural _ p => p

/-- There are no braces and no commas in the texts that members stand for. -/
theorem plain_of_mem_choicesAmong : ∀ (members : List (Alternation true)) {s : List Char},
    s ∈ choicesAmong members → (∀ c ∈ s, notBrace c) ∧ ',' ∉ s
  | [], s, h => by cases h
  | member :: others, s, h => by
    rw [choicesAmong, List.mem_append] at h
    rcases h with hmember | hothers
    · exact (plain_of_mem_choices member hmember).imp_right fun hwhole => hwhole rfl
    · exact plain_of_mem_choicesAmong others hothers
termination_by structural members => members

end

/-- A pattern stands for something. -/
theorem exists_mem_choices : ∀ {inside : Bool} (p : Alternation inside), ∃ s, s ∈ p.choices
  | _, .literal s _ _ => ⟨s, List.mem_singleton_self s⟩
  | _, .append first second => by
    obtain ⟨s, hs⟩ := exists_mem_choices first
    obtain ⟨t, ht⟩ := exists_mem_choices second
    exact ⟨s ++ t, List.mem_flatMap.mpr ⟨s, hs, List.mem_map.mpr ⟨t, ht, rfl⟩⟩⟩
  | _, .group first others => by
    obtain ⟨s, hs⟩ := exists_mem_choices first
    exact ⟨s, List.mem_append_left _ hs⟩

/-- What holds of a member or of those around it, for one of several texts in its place, holds of one
of all of these. -/
theorem exists_mem_place {before texts behind : List (List Char)} {P : List Char → Prop}
    (htexts : ∃ s, s ∈ texts) : (∃ s ∈ texts, ∃ t ∈ before ++ s :: behind, P t) ↔
      ∃ t ∈ before ++ (texts ++ behind), P t := by
  simp only [List.mem_append, List.mem_cons]
  constructor
  · rintro ⟨s, hs, t, hbefore | rfl | hbehind, ht⟩
    · exact ⟨t, .inl hbefore, ht⟩
    · exact ⟨t, .inr (.inl hs), ht⟩
    · exact ⟨t, .inr (.inr hbehind), ht⟩
  · obtain ⟨s, hs⟩ := htexts
    rintro ⟨t, hbefore | hmem | hbehind, ht⟩
    · exact ⟨s, hs, t, .inl hbefore, ht⟩
    · exact ⟨t, hmem, t, .inr (.inl rfl), ht⟩
    · exact ⟨s, hs, t, .inr (.inr hbehind), ht⟩

section Expanding

variable {r : List Char}

mutual

/-- What a part of a pattern stands for may be put in its place, whatever stands around it, as long
as no group is closed before it. -/
theorem mem_expandBraces_part : ∀ {inside : Bool} (p : Alternation inside) (head tail : List Char),
    firstGroup? head = none → (r ∈ expandBraces (head ++ p.text ++ tail) ↔
      ∃ s ∈ p.choices, r ∈ expandBraces (head ++ s ++ tail))
  | _, .literal s _ _, head, tail, hhead => by simp [text, choices]
  | _, .append first second, head, tail, hhead => by
    have hsecond (s : List Char) (hs : s ∈ first.choices) :
        r ∈ expandBraces (head ++ s ++ second.text ++ tail) ↔
          ∃ t ∈ second.choices, r ∈ expandBraces (head ++ s ++ t ++ tail) :=
      mem_expandBraces_part second _ _ (firstGroup?_append hhead fun hclosed => by
        cases (plain_of_mem_choices first hs).1 _ hclosed)
    have hfirst := mem_expandBraces_part first head (second.text ++ tail) hhead
    simp only [← List.append_assoc] at hfirst
    rw [text, ← List.append_assoc, hfirst, choices]
    simp only [List.mem_flatMap, List.mem_map]
    constructor
    · rintro ⟨s, hs, hr⟩
      obtain ⟨t, ht, hr⟩ := (hsecond s hs).mp hr
      exact ⟨s ++ t, ⟨s, hs, t, ht, rfl⟩, by rwa [← List.append_assoc]⟩
    · rintro ⟨-, ⟨s, hs, t, ht, rfl⟩, hr⟩
      exact ⟨s, hs, (hsecond s hs).mpr ⟨t, ht, by rwa [← List.append_assoc] at hr⟩⟩
  | inside, .group first others, head, tail, hhead => by
    have hopen : firstGroup? (head ++ ['\x7b']) = none := firstGroup?_append hhead (by decide)
    have hfirst := mem_expandBraces_part first _ (textBehind others ++ '\x7d' :: tail) hopen
    have hothers (s : List Char) (hs : s ∈ first.choices) :
        r ∈ expandBraces (head ++ ['\x7b'] ++ s ++ (textBehind others ++ '\x7d' :: tail)) ↔
          ∃ t ∈ [] ++ s :: choicesAmong others, r ∈ expandBraces (head ++ t ++ tail) := by
      obtain ⟨hplain, hwhole⟩ := plain_of_mem_choices first hs
      have hmembers := mem_expandBraces_members others head s tail hhead hplain
      rw [Text.splitAt_of_notMem (hwhole rfl)] at hmembers
      simpa using hmembers
    have hwritten : head ++ (Alternation.group first others : Alternation inside).text ++ tail =
        head ++ ['\x7b'] ++ first.text ++ (textBehind others ++ '\x7d' :: tail) := by
      simp [text]
    rw [hwritten, hfirst, exists_congr fun s => and_congr_right (hothers s),
      exists_mem_place (exists_mem_choices first), choices, List.nil_append]
termination_by structural _ p => p

/-- What members of an open group stand for may be put in the place of the group, as may the members
before them. -/
theorem mem_expandBraces_members : ∀ (members : List (Alternation true))
    (head body tail : List Char), firstGroup? head = none → (∀ c ∈ body, notBrace c) →
      (r ∈ expandBraces (head ++ '\x7b' :: (body ++ textBehind members ++ '\x7d' :: tail)) ↔
        ∃ s ∈ Text.splitAt ',' body ++ choicesAmong members, r ∈ expandBraces (head ++ s ++ tail))
  | [], head, body, tail, hhead, hbody => by
    rw [textBehind, List.append_nil, expandBraces_of_some (firstGroup?_append_group hhead hbody tail),
      choicesAmong, List.append_nil, List.mem_flatMap]
  | member :: others, head, body, tail, hhead, hbody => by
    have hopen : firstGroup? (head ++ '\x7b' :: (body ++ [','])) = none :=
      firstGroup?_append hhead fun hclosed => by
        have hmem : '\x7d' ∈ body := by simpa using hclosed
        cases hbody _ hmem
    have hmember := mem_expandBraces_part member _ (textBehind others ++ '\x7d' :: tail) hopen
    have hothers (s : List Char) (hs : s ∈ member.choices) :
        r ∈ expandBraces (head ++ '\x7b' :: (body ++ [',']) ++ s ++
            (textBehind others ++ '\x7d' :: tail)) ↔
          ∃ t ∈ Text.splitAt ',' body ++ s :: choicesAmong others,
            r ∈ expandBraces (head ++ t ++ tail) := by
      obtain ⟨hplain, hwhole⟩ := plain_of_mem_choices member hs
      have hlonger : ∀ c ∈ body ++ ',' :: s, notBrace c :=
        List.forall_mem_append.mpr ⟨hbody, List.forall_mem_cons.mpr ⟨rfl, hplain⟩⟩
      have hmembers := mem_expandBraces_members others head _ tail hhead hlonger
      rw [Text.splitAt_append_separator, Text.splitAt_of_notMem (hwhole rfl)] at hmembers
      simpa using hmembers
    have hwritten : head ++ '\x7b' :: (body ++ textBehind (member :: others) ++ '\x7d' :: tail) =
        head ++ '\x7b' :: (body ++ [',']) ++ member.text ++ (textBehind others ++ '\x7d' :: tail) := by
      simp [textBehind]
    rw [hwritten, hmember, exists_congr fun s => and_congr_right (hothers s),
      exists_mem_place (exists_mem_choices member), choicesAmong]
termination_by structural members => members

end

end Expanding

end Alternation

open Alternation in
/-- Replacing groups comes to an end for every pattern, with the patterns that the members in the place
of its leftmost group lead to, and leaves no group. For a pattern that is built from plain texts and
groups it gives the texts that the pattern stands for, in which there is no brace. -/
theorem expandBraces_compositional :
    (WellFounded fun next pattern => Becomes pattern next) ∧
    (∀ pattern,
      (∀ g, firstGroup? pattern = some g → expandBraces pattern =
        (Text.splitAt ',' g.body).flatMap fun member => expandBraces (g.head ++ member ++ g.tail)) ∧
      (firstGroup? pattern = none → expandBraces pattern = [pattern]) ∧
      ∀ r ∈ expandBraces pattern, ¬ HoldsGroup r) ∧
    ∀ p : Alternation false, (∀ r, r ∈ expandBraces p.text ↔ r ∈ p.choices) ∧
      ∀ r ∈ expandBraces p.text, ∀ c ∈ r, c ≠ '\x7b' ∧ c ≠ '\x7d' := by
  have hchoices (p : Alternation false) (r : List Char) : r ∈ expandBraces p.text ↔ r ∈ p.choices := by
    have hpart := @mem_expandBraces_part r _ p [] [] rfl
    have hself (s : List Char) (hs : s ∈ p.choices) : expandBraces s = [s] := by
      refine expandBraces_of_none (@firstGroup?_append [] s rfl fun hclosed => ?_)
      cases (p.plain_of_mem_choices hs).1 _ hclosed
    simp only [List.nil_append, List.append_nil] at hpart
    rw [hpart]
    constructor
    · rintro ⟨s, hs, hr⟩
      rw [hself s hs, List.mem_singleton] at hr
      exact hr ▸ hs
    · exact fun hr => ⟨r, hr, by rw [hself r hr]; exact List.mem_singleton_self r⟩
  refine ⟨becomes_wellFounded, fun pattern => ⟨fun g => expandBraces_of_some,
    expandBraces_of_none, fun r => not_holdsGroup_of_mem_expandBraces⟩, fun p => ⟨hchoices p, ?_⟩⟩
  intro r hr c hc
  simpa [notBrace] using (p.plain_of_mem_choices ((hchoices p r).mp hr)).1 c hc

-- What members have in common comes out more than once.
example : expandBraces "\x7ba,\x7bb,c\x7dd\x7d".toList = [['a'], ['b', 'd'], ['a'], ['c', 'd']] := by
  decide

end ImportAtlas.Glob
