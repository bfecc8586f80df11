/-!
# Runs of a class

A run of characters of a class ends where a character of another kind follows. Where it ends is
then fixed by the text: two ways to cut a run off the same text are the same way.
-/

namespace ImportAtlas.Text

variable {belongs : Char → Bool} {run run' rest rest' : List Char}

/-- A text does not go on with a character of a class. -/
def Stops (belongs : Char → Bool) (rest : List Char) : Prop := ∀ c ∈ rest.head?, belongs c = false

/-- A text that begins with a character outside of a class does not go on with the class. -/
@[simp]
theorem stops_cons {c : Char} : Stops belongs (c :: rest) ↔ belongs c = false := by
  simp [Stops]

/-- Two ways to cut a run off a text are the same. -/
theorem run_unique (hrun : ∀ c ∈ run, belongs c) (hrun' : ∀ c ∈ run', belongs c)
    (hrest : Stops belongs rest) (hrest' : Stops belongs rest') (h : run ++ rest = run' ++ rest') :
    run = run' ∧ rest = rest' := by
  induction run generalizing run' with
  | nil =>
    cases run' with
    | nil => exact ⟨rfl, h⟩
    | cons c run' =>
      rw [show rest = c :: (run' ++ rest') from h, stops_cons] at hrest
      exact absurd (hrun' c List.mem_cons_self) (by simp [hrest])
  | cons c run ih =>
    obtain ⟨hc, hrun⟩ := List.forall_mem_cons.mp hrun
    cases run' with
    | nil =>
      rw [← show c :: (run ++ rest) = rest' from h, stops_cons] at hrest'
      exact absurd hc (by simp [hrest'])
    | cons d run' =>
      obtain ⟨rfl, htail⟩ := List.cons.inj h
      obtain ⟨rfl, rfl⟩ := ih hrun (List.forall_mem_cons.mp hrun').2 htail
      exact ⟨rfl, rfl⟩

/-- A run is what a text begins with of its class. -/
theorem takeWhile_run (hrun : ∀ c ∈ run, belongs c) (hrest : Stops belongs rest) :
    (run ++ rest).takeWhile belongs = run := by
  rw [List.takeWhile_append_of_pos hrun]
  cases rest with
  | nil => simp
  | cons c rest => rw [List.takeWhile_cons_of_neg (by simpa using hrest), List.append_nil]

/-- Without the run, what stands behind it is left. -/
theorem dropWhile_run (hrun : ∀ c ∈ run, belongs c) (hrest : Stops belongs rest) :
    (run ++ rest).dropWhile belongs = rest := by
  rw [List.dropWhile_append_of_pos hrun]
  cases rest with
  | nil => rfl
  | cons c rest => rw [List.dropWhile_cons_of_neg (by simpa using hrest)]

/-- No run of a class reaches beyond a place behind which the text does not go on with the class. -/
theorem length_takeWhile_append_le (h : Stops belongs rest) (front : List Char) :
    ((front ++ rest).takeWhile belongs).length ≤ front.length := by
  have hrest : rest.takeWhile belongs = [] := by
    cases rest with
    | nil => rfl
    | cons c rest => rw [List.takeWhile_cons_of_neg (by simpa using h)]
  rw [List.takeWhile_append]
  split
  · exact Nat.le_of_eq (by rw [hrest, List.append_nil])
  · exact (List.takeWhile_sublist belongs).length_le

namespace AlongRun

/-- What holds of the characters of a run is decided along the run, not over all characters. -/
scoped instance (priority := high) decidableForallMem (P : Char → Prop) [DecidablePred P]
    (run : List Char) : Decidable (∀ c ∈ run, P c) :=
  List.decidableBAll P run

end AlongRun

end ImportAtlas.Text
