/-!
# Splitting

Cutting a text, or any list, at every occurrence of a separator, and what joining the pieces
gives; and the reading of line breaks.
-/

namespace ImportAtlas.Text

variable {α : Type} [DecidableEq α]

/-- The pieces of a list between the occurrences of a separator, one more than there are
occurrences. -/
def splitAt (separator : α) : List α → List (List α)
  | [] => [[]]
  | c :: rest =>
    if c = separator then [] :: splitAt separator rest
    else
      match splitAt separator rest with
      | [] => [[c]]
      | piece :: pieces => (c :: piece) :: pieces

/-- There is always a piece. -/
theorem splitAt_ne_nil (separator : α) (s : List α) : splitAt separator s ≠ [] := by
  cases s with
  | nil => simp [splitAt]
  | cons c rest =>
    rw [splitAt]
    split
    · simp
    · split <;> simp

/-- The pieces joined by the separator give the list back. -/
theorem intercalate_splitAt (separator : α) (s : List α) :
    [separator].intercalate (splitAt separator s) = s := by
  induction s with
  | nil => rfl
  | cons c rest ih =>
    rw [splitAt]
    have hne := splitAt_ne_nil separator rest
    cases hs : splitAt separator rest with
    | nil => exact absurd hs hne
    | cons piece pieces =>
      rw [hs] at ih
      split
      · next h =>
        subst h
        rw [List.intercalate] at ih ⊢
        simp only [List.intersperse] at ih ⊢
        simpa using ih
      · cases pieces with
        | nil => simpa [List.intercalate] using ih
        | cons q qs =>
          rw [List.intercalate] at ih ⊢
          simp only [List.intersperse, List.flatten_cons] at ih ⊢
          simpa using ih

/-- A text with `\r\n` and lone `\r` read as newlines. -/
def universalNewlines : List Char → List Char
  | [] => []
  | '\r' :: '\n' :: rest => '\n' :: universalNewlines rest
  | '\r' :: rest => '\n' :: universalNewlines rest
  | c :: rest => c :: universalNewlines rest

end ImportAtlas.Text
