import Mathlib.Data.List.Basic
import ImportAtlas.Text.Split

/-!
# Pieces between separators

The pieces of a text hold no separator, and such pieces are given back by their joined text. What
follows a text goes on with its last piece, so that a text can be cut while it is still being read.
-/

namespace ImportAtlas.Text

variable {α : Type} [DecidableEq α]

/-- A list without separators is its only piece. -/
theorem splitAt_of_notMem {separator : α} {s : List α} (h : separator ∉ s) :
    splitAt separator s = [s] := by
  induction s with
  | nil => rfl
  | cons c rest ih =>
    rw [List.mem_cons, not_or] at h
    rw [splitAt, if_neg (Ne.symm h.1), ih h.2]

/-- A separator ends the piece before it. -/
theorem splitAt_append_cons {separator : α} {s : List α} (h : separator ∉ s) (rest : List α) :
    splitAt separator (s ++ separator :: rest) = s :: splitAt separator rest := by
  induction s with
  | nil => rw [List.nil_append, splitAt, if_pos rfl]
  | cons c s ih =>
    rw [List.mem_cons, not_or] at h
    rw [List.cons_append, splitAt, if_neg (Ne.symm h.1), ih h.2]

/-- Pieces without separators are given back by their joined text. -/
theorem splitAt_intercalate {separator : α} {pieces : List (List α)} (hne : pieces ≠ [])
    (h : ∀ piece ∈ pieces, separator ∉ piece) :
    splitAt separator ([separator].intercalate pieces) = pieces := by
  induction pieces with
  | nil => exact absurd rfl hne
  | cons piece pieces ih =>
    have hpiece := h piece List.mem_cons_self
    cases pieces with
    | nil => rw [List.intercalate_singleton, splitAt_of_notMem hpiece]
    | cons piece' pieces =>
      have hrest := ih (by simp) fun p hp => h p (List.mem_cons_of_mem _ hp)
      rw [List.intercalate_cons_cons, List.append_assoc, List.singleton_append,
        splitAt_append_cons hpiece, hrest]

/-- No piece holds a separator. -/
theorem notMem_of_mem_splitAt {separator : α} {s piece : List α}
    (h : piece ∈ splitAt separator s) : separator ∉ piece := by
  induction s generalizing piece with
  | nil =>
    rw [splitAt, List.mem_singleton] at h
    exact h ▸ List.not_mem_nil
  | cons c rest ih =>
    rw [splitAt] at h
    split at h
    · rcases List.mem_cons.mp h with rfl | h
      · exact List.not_mem_nil
      · exact ih h
    · next hc =>
      cases hrest : splitAt separator rest with
      | nil => exact absurd hrest (splitAt_ne_nil separator rest)
      | cons first pieces =>
        rw [hrest] at h ih
        rcases List.mem_cons.mp h with rfl | h
        · rw [List.mem_cons, not_or]
          exact ⟨Ne.symm hc, ih List.mem_cons_self⟩
        · exact ih (List.mem_cons_of_mem _ h)

/-- A text is cut at its separators. -/
theorem splitAt_eq_splitOn (separator : α) (s : List α) :
    splitAt separator s = s.splitOn separator := by
  have h := List.splitOn_intercalate separator (fun _ => notMem_of_mem_splitAt (s := s))
    (splitAt_ne_nil separator s)
  rw [intercalate_splitAt] at h
  exact h.symm

/-- What is in a piece is in the text. -/
theorem mem_of_mem_splitAt {separator c : α} {s piece : List α} (h : piece ∈ splitAt separator s)
    (hc : c ∈ piece) : c ∈ s := by
  induction s generalizing piece with
  | nil =>
    rw [splitAt, List.mem_singleton] at h
    exact h ▸ hc
  | cons d rest ih =>
    rw [splitAt] at h
    split at h
    · rcases List.mem_cons.mp h with rfl | h
      · cases hc
      · exact List.mem_cons_of_mem d (ih h hc)
    · cases hrest : splitAt separator rest with
      | nil => exact absurd hrest (splitAt_ne_nil separator rest)
      | cons first pieces =>
        rw [hrest] at h ih
        rcases List.mem_cons.mp h with rfl | h
        · exact (List.mem_cons.mp hc).elim (fun heq => heq ▸ List.mem_cons_self)
            fun hc => List.mem_cons_of_mem d (ih List.mem_cons_self hc)
        · exact List.mem_cons_of_mem d (ih (List.mem_cons_of_mem _ h) hc)

/-- A text goes on with the last piece of what stands before it. -/
theorem splitAt_append (separator : α) (s t : List α) :
    splitAt separator (s ++ t) = (splitAt separator s).dropLast ++
      splitAt separator ((splitAt separator s).getLast?.getD [] ++ t) := by
  induction s with
  | nil => rfl
  | cons c rest ih =>
    rw [List.cons_append, splitAt, ih, splitAt]
    have hne := splitAt_ne_nil separator rest
    by_cases hc : c = separator
    · rw [if_pos hc, if_pos hc, List.dropLast_cons_of_ne_nil hne, List.getLast?_cons_of_ne_nil hne,
        List.cons_append]
    · rw [if_neg hc, if_neg hc]
      cases hrest : splitAt separator rest with
      | nil => exact absurd hrest hne
      | cons piece pieces =>
        cases pieces with
        | nil =>
          -- The first piece is the last one as well, and `c` stands at its beginning.
          simp [splitAt, hc]
        | cons second pieces => simp

/-- The pieces of two texts with a separator between them are those of both. -/
theorem splitAt_append_separator (separator : α) (s t : List α) :
    splitAt separator (s ++ separator :: t) = splitAt separator s ++ splitAt separator t := by
  induction s with
  | nil => exact splitAt_append_cons List.not_mem_nil t
  | cons c rest ih =>
    rw [List.cons_append, splitAt, splitAt, ih]
    split
    · rfl
    · cases hrest : splitAt separator rest with
      | nil => exact absurd hrest (splitAt_ne_nil separator rest)
      | cons piece pieces => rfl

/-- The pieces of a longer text but the last one. -/
theorem dropLast_splitAt_append (separator : α) (s t : List α) :
    (splitAt separator (s ++ t)).dropLast = (splitAt separator s).dropLast ++
      (splitAt separator ((splitAt separator s).getLast?.getD [] ++ t)).dropLast := by
  rw [splitAt_append, List.dropLast_append_of_ne_nil (splitAt_ne_nil _ _)]

/-- The last piece of a longer text. -/
theorem getLast?_splitAt_append (separator : α) (s t : List α) :
    (splitAt separator (s ++ t)).getLast? =
      (splitAt separator ((splitAt separator s).getLast?.getD [] ++ t)).getLast? := by
  rw [splitAt_append, List.getLast?_append_of_ne_nil _ (splitAt_ne_nil _ _)]

/-- The last piece holds no separator. -/
theorem notMem_getLast?_splitAt (separator : α) (s : List α) :
    separator ∉ (splitAt separator s).getLast?.getD [] := by
  rw [List.getLast?_eq_some_getLast (splitAt_ne_nil separator s)]
  exact notMem_of_mem_splitAt (List.getLast_mem _)

end ImportAtlas.Text
