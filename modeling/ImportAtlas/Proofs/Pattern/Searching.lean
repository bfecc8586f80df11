import ImportAtlas.Proofs.Pattern.Language

/-!
# Searching and the language of a pattern

A search succeeds if the pattern accepts a stretch anywhere in the text. Only the anchors of a pattern
look at what stands around the stretch, so a pattern without those that look to one side accepts the same
stretches whatever stands there.
-/

namespace ImportAtlas.Pattern

variable {p : Pattern} {left left' s right right' : List Char} {gs : List (List Char)}

/-- A search from a place succeeds if there is a match at that place or at a later one. -/
theorem isSome_searchFrom_iff {rest : List Char} :
    (p.searchFrom left.getLast? left.length rest).isSome ↔
      ∃ skipped found, rest = skipped ++ found ∧ (p.matchAfter (left ++ skipped) found).isSome := by
  induction rest generalizing left with
  | nil =>
    constructor
    · intro h
      exact ⟨[], [], rfl, by rwa [List.append_nil]⟩
    · rintro ⟨skipped, found, heq, h⟩
      obtain ⟨rfl, rfl⟩ := List.append_eq_nil_iff.mp heq.symm
      rwa [List.append_nil] at h
  | cons x rest ih =>
    have hnext : p.searchFrom (Option.some x) (left.length + 1) rest =
        p.searchFrom (left ++ [x]).getLast? (left ++ [x]).length rest := by
      rw [List.getLast?_concat, List.length_append, List.length_singleton]
    rw [searchFrom]
    cases hhere : p.matchAt left.getLast? left.length (x :: rest) with
    | some m =>
      have hmatch : (p.matchAfter left (x :: rest)).isSome := Option.isSome_iff_exists.mpr ⟨m, hhere⟩
      exact iff_of_true rfl ⟨[], x :: rest, rfl, by rwa [List.append_nil]⟩
    | none =>
      rw [hnext, ih]
      constructor
      · rintro ⟨skipped, found, rfl, h⟩
        exact ⟨x :: skipped, found, rfl, by rwa [List.append_assoc] at h⟩
      · rintro ⟨skipped, found, heq, h⟩
        cases skipped with
        | nil =>
          rw [List.nil_append] at heq
          rw [← heq, List.append_nil, matchAfter, hhere] at h
          cases h
        | cons y skipped =>
          obtain ⟨rfl, rfl⟩ := List.cons.inj heq
          exact ⟨skipped, found, rfl, by rwa [List.append_assoc]⟩

/-- A search succeeds if the pattern accepts some stretch of the text. -/
theorem isSome_search_iff {text : List Char} :
    (p.search text).isSome ↔
      ∃ left s right gs, text = left ++ (s ++ right) ∧ p.Accepts left s right gs := by
  have hfrom : (p.search text).isSome ↔
      ∃ left found, text = left ++ found ∧ (p.matchAfter left found).isSome :=
    @isSome_searchFrom_iff p [] text
  rw [hfrom]
  constructor
  · rintro ⟨left, found, rfl, h⟩
    obtain ⟨m, hm⟩ := Option.isSome_iff_exists.mp h
    obtain ⟨s, right, rfl, haccepts, -⟩ := accepts_of_matchAfter hm
    exact ⟨left, s, right, m.groups, rfl, haccepts⟩
  · rintro ⟨left, s, right, gs, rfl, haccepts⟩
    exact ⟨left, s ++ right, rfl, isSome_matchAfter haccepts⟩

/-- The empty text after a pattern changes nothing. -/
theorem accepts_seq_empty : (seq p .empty).Accepts left s right gs ↔ p.Accepts left s right gs := by
  constructor
  · rintro ⟨s, t, gs, hs, rfl, rfl, h, rfl, rfl⟩
    rw [List.append_nil, List.append_nil]
    exact h
  · intro h
    exact ⟨s, [], gs, [], (List.append_nil s).symm, (List.append_nil gs).symm, h, rfl, rfl⟩

/-- The empty text before a pattern changes nothing. -/
theorem accepts_empty_seq : (seq .empty p).Accepts left s right gs ↔ p.Accepts left s right gs := by
  constructor
  · rintro ⟨s, t, gs, hs, rfl, rfl, ⟨rfl, rfl⟩, h⟩
    rwa [List.append_nil] at h
  · intro h
    exact ⟨[], s, [], gs, rfl, rfl, ⟨rfl, rfl⟩, by rwa [List.append_nil]⟩

/-- Whether a pattern asks what stands before it. -/
def looksBack : Pattern → Bool
  | .seq first second => first.looksBack || second.looksBack
  | .alt first second => first.looksBack || second.looksBack
  | .star body => body.looksBack
  | .capture body => body.looksBack
  | .lineStart | .textStart | .wordEdge => true
  | _ => false

/-- Whether a pattern asks what stands behind it. -/
def looksAhead : Pattern → Bool
  | .seq first second => first.looksAhead || second.looksAhead
  | .alt first second => first.looksAhead || second.looksAhead
  | .star body => body.looksAhead
  | .capture body => body.looksAhead
  | .textEnd | .wordEdge => true
  | _ => false

/-- What a pattern accepts depends on a neighbour only if the pattern looks there. -/
theorem accepts_congr (hback : p.looksBack → left = left') (hahead : p.looksAhead → right = right')
    (h : p.Accepts left s right gs) : p.Accepts left' s right' gs := by
  induction p generalizing left left' s right right' gs with
  | empty | one | many => exact h
  | seq first second ihFirst ihSecond =>
    simp only [looksBack, looksAhead, Bool.or_eq_true] at hback hahead
    obtain ⟨s, t, gs, hs, rfl, rfl, hfirst, hsecond⟩ := h
    refine ⟨s, t, gs, hs, rfl, rfl, ihFirst (fun hlooks => hback (.inl hlooks)) (fun hlooks => ?_) hfirst,
      ihSecond (fun hlooks => ?_) (fun hlooks => hahead (.inr hlooks)) hsecond⟩
    · rw [hahead (.inl hlooks)]
    · rw [hback (.inr hlooks)]
  | alt first second ihFirst ihSecond =>
    simp only [looksBack, looksAhead, Bool.or_eq_true] at hback hahead
    exact h.imp (ihFirst (fun hlooks => hback (.inl hlooks)) fun hlooks => hahead (.inl hlooks))
      (ihSecond (fun hlooks => hback (.inr hlooks)) fun hlooks => hahead (.inr hlooks))
  | star body ih =>
    have hrounds : Rounds body.Accepts left s right gs := h
    clear h
    induction hrounds generalizing left' right' with
    | nil => exact Rounds.nil
    | cons hne hround _ ihRounds =>
      refine Rounds.cons hne (ih hback (fun hlooks => ?_) hround) (ihRounds (fun hlooks => ?_) hahead)
      · rw [hahead hlooks]
      · rw [hback hlooks]
  | capture body ih =>
    obtain ⟨inner, hbody, rfl⟩ := h
    exact ⟨inner, ih hback hahead hbody, rfl⟩
  | lineStart | textStart => exact hback rfl ▸ h
  | textEnd => exact hahead rfl ▸ h
  | wordEdge =>
    obtain rfl := hback rfl
    exact hahead rfl ▸ h

end ImportAtlas.Pattern
