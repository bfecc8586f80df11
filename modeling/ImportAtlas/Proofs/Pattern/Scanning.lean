import ImportAtlas.Proofs.Pattern.Locality

/-!
# The matches in a window

The matches of a text follow each other: each begins where the one before ended or later, and
wherever a pattern could match, one of them lies. If no match of the text runs over either border of
a window that begins where a line begins, the matches that begin in the window are those of the
window alone.
-/

namespace ImportAtlas

/-- Whether a line begins at a place of a text. -/
def BeginsLine (text : List Char) (place : ℕ) : Prop :=
  (text.take place).getLast?.all (· == '\n')

/-- Read backwards, a text without its last line ends with a newline, if there is anything left of it. -/
theorem getLast?_dropWhile_newline (back : List Char) :
    (back.dropWhile (· != '\n')).reverse.getLast?.all (· == '\n') := by
  have hhead := List.head?_dropWhile_not (· != '\n') back
  rw [List.getLast?_reverse]
  cases hnext : (back.dropWhile (· != '\n')).head? with
  | none => rfl
  | some c =>
    rw [hnext] at hhead
    simpa using hhead

/-- Two places of a text cut it in three. -/
theorem exists_append_of_le {text : List Char} {start stop : ℕ} (hle : start ≤ stop)
    (hlength : stop ≤ text.length) :
    ∃ outside window after, text = outside ++ window ++ after ∧ outside = text.take start ∧
      window = (text.take stop).drop start ∧ outside.length = start ∧
        (outside ++ window).length = stop := by
  have hwindow : text.take start ++ (text.take stop).drop start = text.take stop := by
    have htake : text.take start = (text.take stop).take start := by
      rw [List.take_take, Nat.min_eq_left hle]
    rw [htake, List.take_append_drop]
  refine ⟨text.take start, (text.take stop).drop start, text.drop stop, ?_, rfl, rfl, ?_, ?_⟩
  · rw [hwindow, List.take_append_drop]
  · rw [List.length_take]
    omega
  · rw [hwindow, List.length_take]
    omega

namespace Pattern

/-- The match where a text is cut in two, if there is one. -/
def matchAfter (p : Pattern) (before after : List Char) : Option Match :=
  p.matchAt before.getLast? before.length after

/-- The matches in the second part of a text that is cut in two, none beginning before `resume`. -/
def matchesAfter (p : Pattern) (before : List Char) (resume : ℕ) (after : List Char) : List Match :=
  p.matchesFrom before.getLast? before.length resume after

variable {p : Pattern} {before after : List Char} {resume : ℕ} {m : Match}

/-- At the end of a text, one match at most is left. -/
theorem matchesAfter_nil (p : Pattern) (before : List Char) (resume : ℕ) :
    p.matchesAfter before resume [] =
      if before.length < resume then [] else (p.matchAfter before []).toList := rfl

/-- Matches go on behind the next character, or behind the match before it. -/
theorem matchesAfter_cons (p : Pattern) (before : List Char) (resume : ℕ) (x : Char)
    (after : List Char) :
    p.matchesAfter before resume (x :: after) =
      if before.length < resume then p.matchesAfter (before ++ [x]) resume after
      else
        match p.matchAfter before (x :: after) with
        | none => p.matchesAfter (before ++ [x]) resume after
        | Option.some m =>
          m :: p.matchesAfter (before ++ [x]) (max m.stop (before.length + 1)) after := by
  simp only [matchesAfter, matchAfter, List.getLast?_concat, List.length_append,
    List.length_singleton]
  rfl

/-- A match begins where it was looked for, ends in the text, and is not empty if the pattern needs
a character. -/
theorem matchAfter_some (h : p.matchAfter before after = Option.some m) :
    m.start = before.length ∧ m.stop ≤ (before ++ after).length ∧
      (p.advances → m.start < m.stop) := by
  rw [List.length_append]
  exact matchAt_some h

/-- Each of the matches is the match where it begins, and none begins too early. -/
theorem matchAfter_of_mem (h : m ∈ p.matchesAfter before resume after) :
    resume ≤ m.start ∧ ∃ left right, after = left ++ right ∧
      p.matchAfter (before ++ left) right = Option.some m := by
  induction after generalizing before resume with
  | nil =>
    rw [matchesAfter_nil] at h
    split at h
    · cases h
    · next hresume =>
      have hmatch := Option.mem_toList.mp h
      have hstart := (matchAfter_some hmatch).1
      exact ⟨by omega, [], [], rfl, by rwa [List.append_nil]⟩
  | cons x after ih =>
    have hlater {resume' : ℕ} (hle : resume ≤ resume')
        (h : m ∈ p.matchesAfter (before ++ [x]) resume' after) :
        resume ≤ m.start ∧ ∃ left right, x :: after = left ++ right ∧
          p.matchAfter (before ++ left) right = Option.some m := by
      obtain ⟨hresume, left, right, rfl, hmatch⟩ := ih h
      exact ⟨by omega, x :: left, right, rfl, by rwa [List.append_assoc] at hmatch⟩
    rw [matchesAfter_cons] at h
    split at h
    · exact hlater (Nat.le_refl _) h
    · next hresume =>
      split at h
      · exact hlater (Nat.le_refl _) h
      · next m' hmatch =>
        have hstart := (matchAfter_some hmatch).1
        rcases List.mem_cons.mp h with rfl | h
        · exact ⟨by omega, [], x :: after, rfl, by rwa [List.append_nil]⟩
        · exact hlater (by omega) h

/-- No match begins before the place from which matches are looked for. -/
theorem length_le_start (h : m ∈ p.matchesAfter before resume after) : before.length ≤ m.start := by
  obtain ⟨-, left, right, -, hmatch⟩ := matchAfter_of_mem h
  rw [(matchAfter_some hmatch).1, List.length_append]
  omega

/-- A place that has been reached need not be waited for. -/
theorem matchesAfter_of_le (h : resume ≤ before.length) :
    p.matchesAfter before resume after = p.matchesAfter before 0 after := by
  induction after generalizing before with
  | nil => rw [matchesAfter_nil, matchesAfter_nil, if_neg (by omega), if_neg (by omega)]
  | cons x after ih =>
    have hnext := @ih (before ++ [x]) (by rw [List.length_append]; omega)
    rw [matchesAfter_cons, matchesAfter_cons, if_neg (by omega), if_neg (by omega), hnext]

/-- The matches follow each other. -/
theorem matchesAfter_pairwise (p : Pattern) (before : List Char) (resume : ℕ) (after : List Char) :
    (p.matchesAfter before resume after).Pairwise fun a b => a.start < b.start ∧ a.stop ≤ b.start := by
  induction after generalizing before resume with
  | nil =>
    rw [matchesAfter_nil]
    split
    · exact .nil
    · cases p.matchAfter before [] <;> simp
  | cons x after ih =>
    rw [matchesAfter_cons]
    split
    · exact ih ..
    · split
      · exact ih ..
      · next m hmatch =>
        refine List.pairwise_cons.mpr ⟨fun m' hm' => ?_, ih ..⟩
        have hstart := (matchAfter_some hmatch).1
        have hresume := (matchAfter_of_mem hm').1
        omega

/-- Wherever the pattern could match, one of the matches lies, unless matches are looked for only
further on. -/
theorem exists_mem_matchesAfter (hadvances : p.advances) {left right : List Char}
    (h : (p.matchAfter (before ++ left) right).isSome) :
    (before ++ left).length < resume ∨
      ∃ m ∈ p.matchesAfter before resume (left ++ right),
        m.start ≤ (before ++ left).length ∧ (before ++ left).length < m.stop := by
  induction left generalizing before resume with
  | nil =>
    rw [List.append_nil] at h ⊢
    obtain ⟨m, hm⟩ := Option.isSome_iff_exists.mp h
    obtain ⟨hstart, -, hlt⟩ := matchAfter_some hm
    have hcovers : m.start ≤ before.length ∧ before.length < m.stop := by
      have := hlt hadvances
      omega
    by_cases hresume : before.length < resume
    · exact .inl hresume
    · refine .inr ⟨m, ?_, hcovers⟩
      cases right with
      | nil => simp [matchesAfter_nil, hresume, hm]
      | cons x right => simp [matchesAfter_cons, hresume, hm]
  | cons x left ih =>
    have hbefore : before ++ x :: left = before ++ [x] ++ left := by simp
    rw [hbefore] at h ⊢
    rw [List.cons_append, matchesAfter_cons]
    split
    · exact ih h
    · split
      · exact ih h
      · next m hmatch =>
        have hstart := (matchAfter_some hmatch).1
        have hlength : (before ++ [x] ++ left).length = before.length + 1 + left.length := by
          simp only [List.length_append, List.length_singleton]
        rcases @ih (before ++ [x]) (max m.stop (before.length + 1)) h with hcovered | ⟨m', hm', hcovers⟩
        · exact .inr ⟨m, List.mem_cons_self, by omega, by omega⟩
        · exact .inr ⟨m', List.mem_cons_of_mem _ hm', hcovers⟩

/-- Matches that stay before a place leave those behind it alone. -/
theorem filter_matchesAfter_append {left : List Char} (hresume : resume ≤ (before ++ left).length)
    (hstop : ∀ m ∈ p.matchesAfter before resume (left ++ after),
      m.start < (before ++ left).length → m.stop ≤ (before ++ left).length) :
    (p.matchesAfter before resume (left ++ after)).filter
        (fun m => (before ++ left).length ≤ m.start) = p.matchesAfter (before ++ left) 0 after := by
  induction left generalizing before resume with
  | nil =>
    rw [List.append_nil] at hresume ⊢
    rw [List.nil_append, matchesAfter_of_le hresume, List.filter_eq_self]
    intro m hm
    simpa using length_le_start hm
  | cons x left ih =>
    have hbefore : before ++ x :: left = before ++ [x] ++ left := by simp
    have hlength : (before ++ [x] ++ left).length = before.length + 1 + left.length := by
      simp only [List.length_append, List.length_singleton]
    rw [hbefore] at hresume hstop ⊢
    rw [List.cons_append, matchesAfter_cons] at hstop ⊢
    split at hstop
    · next hlt =>
      rw [if_pos hlt]
      exact ih hresume hstop
    · next hge =>
      rw [if_neg hge]
      split at hstop
      · exact ih hresume hstop
      · next m hmatch =>
        have hstart := (matchAfter_some hmatch).1
        have hstop' := hstop m List.mem_cons_self (by omega)
        rw [List.filter_cons_of_neg (by simp only [decide_eq_true_eq]; omega)]
        exact ih (by omega) fun m' hm' => hstop m' (List.mem_cons_of_mem _ hm')

section Window

variable {outside : List Char}

/-- In a window that begins where a line begins, a line begins where it does in the text. -/
theorem all_newline_append (hline : outside.getLast?.all (· == '\n')) (before : List Char) :
    (outside ++ before).getLast?.all (· == '\n') = before.getLast?.all (· == '\n') := by
  cases hbefore : before.getLast? with
  | none => rw [List.getLast?_eq_none_iff.mp hbefore, List.append_nil, hline]; rfl
  | some x => rw [List.getLast?_append, hbefore]; rfl

/-- In a window that begins where a line begins, the character before a place belongs to a word if
it does in the text. -/
theorem wordBeside_append (hline : outside.getLast?.all (· == '\n')) (before : List Char) :
    wordBeside (outside ++ before).getLast? = wordBeside before.getLast? := by
  cases hbefore : before.getLast? with
  | none =>
    rw [List.getLast?_eq_none_iff.mp hbefore, List.append_nil]
    cases hlast : outside.getLast? with
    | none => rfl
    | some x =>
      rw [hlast, Option.all_some, beq_iff_eq] at hline
      subst hline
      decide
  | some x => rw [List.getLast?_append, hbefore]; rfl

/-- Where something is left of a window, the match there is that of the window alone, if it does not
leave the window. -/
theorem matchAfter_window (hwindowed : p.isWindowed) (hline : outside.getLast?.all (· == '\n'))
    {window : List Char} (hne : window ≠ [])
    (hstop : ∀ m ∈ p.matchAfter (outside ++ before) (window ++ after),
      m.stop ≤ (outside ++ before ++ window).length) :
    p.matchAfter (outside ++ before) (window ++ after) =
      (p.matchAfter before window).map (Match.shift outside.length) := by
  have hline' := all_newline_append hline before
  have hword := wordBeside_append hline before
  have hcut : (outside ++ before).length = outside.length + before.length := List.length_append
  simp only [List.length_append, Option.mem_def] at hstop
  cases hmatch : p.matchAfter (outside ++ before) (window ++ after) with
  | none =>
    rw [matchAfter, hcut] at hmatch
    rw [matchAfter, matchAt_window_of_none hwindowed hne hline' hword hmatch, Option.map_none]
  | some m =>
    have hstop' := hstop m hmatch
    rw [matchAfter, hcut] at hmatch
    obtain ⟨m', hmatch', rfl⟩ :=
      matchAt_window_of_some hwindowed hne hline' hword hmatch hstop'
    rw [matchAfter, hmatch', Option.map_some]

/-- At the end of a text, nothing is left that a pattern which needs a character could match. -/
theorem matchesAfter_nil_of_advances (hadvances : p.advances) (before : List Char) (resume : ℕ) :
    p.matchesAfter before resume [] = [] := by
  refine List.eq_nil_iff_forall_not_mem.mpr fun m hm => ?_
  obtain ⟨-, left, right, hsplit, hmatch⟩ := matchAfter_of_mem hm
  obtain ⟨rfl, rfl⟩ := List.append_eq_nil_iff.mp hsplit.symm
  obtain ⟨hstart, hend, hlt⟩ := matchAfter_some hmatch
  have := hlt hadvances
  simp only [List.append_nil] at hstart hend
  omega

/-- The matches that begin in a window are those of the window alone, if none of them leaves it. -/
theorem filter_matchesAfter_window (hwindowed : p.isWindowed) (hadvances : p.advances)
    (hline : outside.getLast?.all (· == '\n')) {window : List Char}
    (hstop : ∀ m ∈ p.matchesAfter (outside ++ before) (outside.length + resume) (window ++ after),
      m.start < (outside ++ before ++ window).length →
        m.stop ≤ (outside ++ before ++ window).length) :
    (p.matchesAfter (outside ++ before) (outside.length + resume) (window ++ after)).filter
        (fun m => m.start < (outside ++ before ++ window).length) =
      (p.matchesAfter before resume window).map (Match.shift outside.length) := by
  induction window generalizing before resume with
  | nil =>
    -- The text may go on behind the window, but in the window no character is left to match.
    rw [matchesAfter_nil_of_advances hadvances, List.map_nil, List.append_nil, List.nil_append,
      List.filter_eq_nil_iff]
    intro m hm
    have hle := length_le_start hm
    simp only [decide_eq_true_eq]
    omega
  | cons x window ih =>
    have hbefore : outside ++ before ++ x :: window = outside ++ (before ++ [x]) ++ window := by simp
    have hcut : (outside ++ before).length = outside.length + before.length := List.length_append
    have hlength : (outside ++ (before ++ [x]) ++ window).length =
        outside.length + before.length + 1 + window.length := by
      simp only [List.length_append, List.length_singleton]
      omega
    rw [hbefore] at hstop ⊢
    rw [List.cons_append, matchesAfter_cons, List.append_assoc outside before [x]] at hstop ⊢
    rw [matchesAfter_cons]
    by_cases hresume : before.length < resume
    · rw [if_pos (by omega)] at hstop ⊢
      rw [if_pos hresume]
      exact ih hstop
    · rw [if_neg (by omega)] at hstop ⊢
      rw [if_neg hresume]
      have hmatch : p.matchAfter (outside ++ before) (x :: (window ++ after)) =
          (p.matchAfter before (x :: window)).map (Match.shift outside.length) := by
        refine matchAfter_window hwindowed hline (List.cons_ne_nil x window) fun m hm => ?_
        have hstart := (matchAfter_some hm).1
        rw [Option.mem_def, List.cons_append] at hm
        rw [hm] at hstop
        rw [hbefore]
        exact hstop m List.mem_cons_self (by omega)
      rw [hmatch] at hstop ⊢
      cases hmatch' : p.matchAfter before (x :: window) with
      | none =>
        rw [hmatch'] at hstop
        exact ih hstop
      | some m =>
        have hstart := (matchAfter_some hmatch').1
        have hmax : max (m.shift outside.length).stop ((outside ++ before).length + 1) =
            outside.length + max m.stop (before.length + 1) := by
          simp only [Match.shift]
          omega
        have hinside : (m.shift outside.length).start <
            (outside ++ (before ++ [x]) ++ window).length := by
          simp only [Match.shift]
          omega
        simp only [hmatch', Option.map_some, hmax] at hstop ⊢
        rw [List.filter_cons_of_pos (by simpa only [decide_eq_true_eq] using hinside), List.map_cons]
        exact congrArg _ (ih fun m hm => hstop m (List.mem_cons_of_mem _ hm))

end Window

section Texts

variable {text : List Char}

/-- Each match of a text is the match where it begins. -/
theorem matchAfter_of_mem_findAll (h : m ∈ p.findAll text) :
    ∃ left right, text = left ++ right ∧ p.matchAfter left right = Option.some m :=
  (@matchAfter_of_mem p [] text 0 m h).2

/-- The match at the start of a text is one of its matches. -/
theorem mem_findAll_of_matchAfter (h : p.matchAfter [] text = Option.some m) : m ∈ p.findAll text := by
  change m ∈ p.matchesAfter [] 0 text
  cases text with
  | nil =>
    rw [matchesAfter_nil, if_neg (Nat.not_lt_zero _), h]
    exact List.mem_singleton_self m
  | cons x text =>
    rw [matchesAfter_cons, if_neg (Nat.not_lt_zero _), h]
    exact List.mem_cons_self

/-- A match of a text ends in the text. -/
theorem stop_le_of_mem_findAll (h : m ∈ p.findAll text) : m.stop ≤ text.length := by
  obtain ⟨left, right, rfl, hmatch⟩ := matchAfter_of_mem_findAll h
  exact (matchAfter_some hmatch).2.1

/-- A match of a pattern that needs a character is not empty. -/
theorem start_lt_stop_of_mem_findAll (hadvances : p.advances) (h : m ∈ p.findAll text) :
    m.start < m.stop := by
  obtain ⟨left, right, -, hmatch⟩ := matchAfter_of_mem_findAll h
  exact (matchAfter_some hmatch).2.2 hadvances

/-- The matches of a text begin one after the other. -/
theorem findAll_pairwise (p : Pattern) (text : List Char) :
    (p.findAll text).Pairwise fun a b => a.start < b.start :=
  (matchesAfter_pairwise p [] 0 text).imp And.left

/-- Wherever the pattern could match, one of the matches of the text lies. -/
theorem exists_mem_findAll (hadvances : p.advances) {left right : List Char}
    (h : (p.matchAfter left right).isSome) :
    ∃ m ∈ p.findAll (left ++ right), m.start ≤ left.length ∧ left.length < m.stop := by
  rcases @exists_mem_matchesAfter p [] 0 hadvances left right h with hlt | hexists
  · exact absurd hlt (Nat.not_lt_zero _)
  · exact hexists

end Texts

/-- No match of a pattern in a text runs over a place. -/
def Sealed (p : Pattern) (text : List Char) (place : ℕ) : Prop :=
  ∀ m ∈ p.findAll text, m.start < place → m.stop ≤ place

/-- The matches of a text that begin in a window are those of the window alone, if the window begins
where a line begins and no match runs over one of its borders. -/
theorem filter_findAll_window (hwindowed : p.isWindowed) (hadvances : p.advances) {text : List Char}
    {start stop : ℕ} (hle : start ≤ stop) (hlength : stop ≤ text.length)
    (hline : BeginsLine text start) (hstart : p.Sealed text start) (hstop : p.Sealed text stop) :
    (p.findAll text).filter (fun m => start ≤ m.start ∧ m.start < stop) =
      (p.findAll ((text.take stop).drop start)).map (Match.shift start) := by
  obtain ⟨outside, window, after, htext, houtside, hwindow, hcut, hcut'⟩ :=
    exists_append_of_le hle hlength
  rw [← hwindow]
  rw [BeginsLine, ← houtside] at hline
  subst hcut hcut'
  have hbehind : (p.findAll text).filter (fun m => outside.length ≤ m.start) =
      p.matchesAfter outside 0 (window ++ after) := by
    rw [htext, List.append_assoc] at hstart ⊢
    exact @filter_matchesAfter_append p [] (window ++ after) 0 outside (Nat.zero_le _) hstart
  have hresume : p.matchesAfter outside outside.length (window ++ after) =
      p.matchesAfter outside 0 (window ++ after) := matchesAfter_of_le (Nat.le_refl _)
  have hinside := @filter_matchesAfter_window p [] after 0 outside hwindowed hadvances hline window
  rw [List.append_nil, Nat.add_zero, hresume] at hinside
  calc (p.findAll text).filter
        (fun m => outside.length ≤ m.start ∧ m.start < (outside ++ window).length)
    _ = (p.matchesAfter outside 0 (window ++ after)).filter
        (fun m => m.start < (outside ++ window).length) := by
      rw [← hbehind, List.filter_filter]
      refine List.filter_congr fun m _ => ?_
      rw [Bool.decide_and, Bool.and_comm]
    _ = (p.matchesAfter [] 0 window).map (Match.shift outside.length) := by
      refine hinside fun m hm hlt => hstop m ?_ hlt
      rw [← hbehind] at hm
      exact (List.mem_filter.mp hm).1

end Pattern

end ImportAtlas
