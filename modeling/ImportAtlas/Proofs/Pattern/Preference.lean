import ImportAtlas.Proofs.Pattern.Language
import ImportAtlas.Proofs.Text.Runs

/-!
# What a pattern prefers

A pattern may accept several stretches at a place; which of them is matched depends on the order in
which they are tried. A pattern prefers the stretch that is tried first: whatever follows, if
matching can go on behind this stretch, then it does. A run prefers to take all it can, and a
repetition prefers a further round to its end.
-/

namespace ImportAtlas.Pattern

/-- Behind `left`, a pattern prefers the stretch `s` of what comes, and closes the given groups in
it. -/
structure Prefers (p : Pattern) (left s right : List Char) (new : List (ℕ × ℕ)) : Prop where
  tryMatch_eq : ∀ {α : Type} {groups : List (ℕ × ℕ)} {k : Cursor → Option α} {x : α},
    k (.between (left ++ s) right (groups ++ new)) = Option.some x →
      p.tryMatch (.between left (s ++ right) groups) k = Option.some x

/-- Behind `left`, the repetition of a pattern prefers the stretch `s`, if enough rounds are
allowed. -/
structure PrefersRounds (p : Pattern) (left s right : List Char) (new : List (ℕ × ℕ)) : Prop where
  tryStar_eq : ∀ {α : Type} {rounds : ℕ} {groups : List (ℕ × ℕ)} {k : Cursor → Option α} {x : α},
    s.length ≤ rounds → k (.between (left ++ s) right (groups ++ new)) = Option.some x →
      tryStar p.tryMatch rounds (.between left (s ++ right) groups) k = Option.some x

/-- Behind `left`, a pattern accepts no stretch that `rest` begins with. -/
def Refuses (p : Pattern) (left rest : List Char) : Prop :=
  ∀ ⦃s right gs⦄, rest = s ++ right → ¬ p.Accepts left s right gs

variable {p q : Pattern} {ps : List Pattern} {left s t right rest : List Char}
  {new new' : List (ℕ × ℕ)} {belongs : Char → Bool}

/-- Where a pattern refuses all stretches, matching it fails. -/
theorem tryMatch_of_refuses (h : p.Refuses left rest) {α : Type} {groups : List (ℕ × ℕ)}
    {k : Cursor → Option α} : p.tryMatch (.between left rest groups) k = none := by
  refine Option.eq_none_iff_forall_ne_some.mpr fun x hx => ?_
  obtain ⟨s, right, new, hsplit, hs, -⟩ := accepts_of_tryMatch rfl hx
  exact h hsplit hs

/-- The empty pattern. -/
theorem prefers_empty : Prefers .empty left [] right [] where
  tryMatch_eq hk := by rwa [Cursor.between_nil] at hk

/-- A character of a class. -/
theorem prefers_one {c : Char} (hc : belongs c) : Prefers (.one belongs) left [c] right [] where
  tryMatch_eq hk := by
    rw [List.append_nil] at hk
    rw [tryMatch]
    dsimp only [Cursor.between, List.singleton_append]
    rw [if_pos hc, ← Cursor.between, Cursor.next_between]
    exact hk

/-- All characters of a class that follow each other. -/
theorem prefers_many (hs : ∀ c ∈ s, belongs c) (hstop : Text.Stops belongs right) :
    Prefers (.many belongs) left s right [] where
  tryMatch_eq {α groups k x} hk := by
    rw [List.append_nil] at hk
    change tryMany belongs left.getLast? left.length groups k (s ++ right) = Option.some x
    induction s generalizing left with
    | nil =>
      rw [List.append_nil] at hk
      cases right with
      | nil => exact hk
      | cons y right =>
        have hy : belongs y = false := Text.stops_cons.mp hstop
        rw [List.nil_append, tryMany, if_neg (by simp [hy])]
        exact hk
    | cons y s ih =>
      obtain ⟨hy, hs⟩ := List.forall_mem_cons.mp hs
      have hrun := @ih (left ++ [y]) hs (by rwa [List.append_assoc])
      rw [List.getLast?_concat, List.length_append] at hrun
      rw [List.cons_append, tryMany, if_pos hy, Option.orElse_eq_or, Option.or_eq_some_iff]
      exact .inl hrun

/-- A run that succeeds is the longest behind which matching can go on. -/
theorem longest_of_tryMany {α : Type} {groups : List (ℕ × ℕ)} {k : Cursor → Option α} {x : α}
    (h : tryMany belongs left.getLast? left.length groups k rest = Option.some x) :
    ∃ s right, rest = s ++ right ∧ (∀ c ∈ s, belongs c) ∧
      k (.between (left ++ s) right groups) = Option.some x ∧
      ∀ t after, rest = t ++ after → (∀ c ∈ t, belongs c) → s.length < t.length →
        k (.between (left ++ t) after groups) = none := by
  induction rest generalizing left with
  | nil =>
    refine ⟨[], [], rfl, nofun, by rwa [List.append_nil], fun t after heq _ hlt => ?_⟩
    rw [(List.append_eq_nil_iff.mp heq.symm).1] at hlt
    exact absurd hlt (Nat.lt_irrefl _)
  | cons y rest ih =>
    rw [tryMany] at h
    split at h
    · next hy =>
      have hnext : tryMany belongs (Option.some y) (left.length + 1) groups k rest =
          tryMany belongs (left ++ [y]).getLast? (left ++ [y]).length groups k rest := by
        rw [List.getLast?_concat, List.length_append, List.length_singleton]
      rw [Option.orElse_eq_or, Option.or_eq_some_iff, hnext] at h
      rcases h with hrun | ⟨hrun, hk⟩
      · obtain ⟨s, right, rfl, hs, hk, hlonger⟩ := ih hrun
        rw [List.append_assoc] at hk
        refine ⟨y :: s, right, rfl, List.forall_mem_cons.mpr ⟨hy, hs⟩, hk, fun t after heq ht hlt => ?_⟩
        cases t with
        | nil => exact absurd hlt (Nat.not_lt_zero _)
        | cons z t =>
          obtain ⟨rfl, hrest⟩ := List.cons.inj heq
          have hnone := hlonger t after hrest (List.forall_mem_cons.mp ht).2 (Nat.lt_of_succ_lt_succ hlt)
          rwa [List.append_assoc] at hnone
      · refine ⟨[], y :: rest, rfl, nofun, by rwa [List.append_nil], fun t after heq ht hlt => ?_⟩
        cases t with
        | nil => exact absurd hlt (Nat.lt_irrefl _)
        | cons z t =>
          obtain ⟨rfl, rfl⟩ : y = z ∧ rest = t ++ after := List.cons.inj heq
          refine Option.not_isSome_iff_eq_none.mp fun hk => ?_
          rw [← List.singleton_append, ← List.append_assoc] at hk
          have hsome := isSome_tryMany (List.forall_mem_cons.mp ht).2 hk
          rw [hrun] at hsome
          cases hsome
    · next hy =>
      refine ⟨[], y :: rest, rfl, nofun, by rwa [List.append_nil], fun t after heq ht hlt => ?_⟩
      cases t with
      | nil => exact absurd hlt (Nat.lt_irrefl _)
      | cons z t =>
        obtain ⟨rfl, -⟩ := List.cons.inj heq
        exact absurd (ht y List.mem_cons_self) hy

/-- A remembered run that succeeds is the longest behind which matching can go on. -/
theorem longest_of_tryMatch_run {α : Type} {groups : List (ℕ × ℕ)} {k : Cursor → Option α} {x : α}
    (h : (capture (.many belongs)).tryMatch (.between left rest groups) k = Option.some x) :
    ∃ s right, rest = s ++ right ∧ (∀ c ∈ s, belongs c) ∧
      k (.between (left ++ s) right (groups ++ [(left.length, (left ++ s).length)])) =
        Option.some x ∧
      ∀ t after, rest = t ++ after → (∀ c ∈ t, belongs c) → s.length < t.length →
        k (.between (left ++ t) after (groups ++ [(left.length, (left ++ t).length)])) = none :=
  longest_of_tryMany h

/-- One pattern after the other. -/
theorem Prefers.seq (hp : Prefers p left s (t ++ right) new)
    (hq : Prefers q (left ++ s) t right new') :
    Prefers (.seq p q) left (s ++ t) right (new ++ new') where
  tryMatch_eq hk := by
    rw [List.append_assoc, tryMatch]
    refine hp.tryMatch_eq (hq.tryMatch_eq ?_)
    rwa [List.append_assoc, List.append_assoc]

/-- The first of two patterns. -/
theorem Prefers.inl (hp : Prefers p left s right new) : Prefers (.alt p q) left s right new where
  tryMatch_eq hk := by
    rw [tryMatch, hp.tryMatch_eq hk]
    rfl

/-- The second of two patterns, if the first refuses. -/
theorem Prefers.inr (hp : p.Refuses left (s ++ right)) (hq : Prefers q left s right new) :
    Prefers (.alt p q) left s right new where
  tryMatch_eq hk := by
    rw [tryMatch, tryMatch_of_refuses hp]
    exact hq.tryMatch_eq hk

/-- A group. -/
theorem Prefers.capture (hp : Prefers p left s right new) :
    Prefers (.capture p) left s right (new ++ [(left.length, (left ++ s).length)]) where
  tryMatch_eq hk := by
    rw [tryMatch]
    refine hp.tryMatch_eq ?_
    rwa [← List.append_assoc] at hk

/-- The border of a word. -/
theorem prefers_wordEdge (h : wordBeside left.getLast? != wordBeside right.head?) :
    Prefers .wordEdge left [] right [] where
  tryMatch_eq hk := by
    rw [Cursor.between_nil] at hk
    rw [tryMatch, if_pos (by exact h)]
    exact hk

/-- No further round, if the pattern refuses. -/
theorem prefersRounds_nil (h : p.Refuses left right) : PrefersRounds p left [] right [] where
  tryStar_eq {_ rounds _ _ _} _ hk := by
    rw [Cursor.between_nil] at hk
    rw [List.nil_append]
    cases rounds with
    | zero => exact hk
    | succ rounds =>
      rw [tryStar, tryMatch_of_refuses h]
      exact hk

/-- A round and the rounds behind it. -/
theorem PrefersRounds.cons (hne : s ≠ []) (hp : Prefers p left s (t ++ right) new)
    (hrest : PrefersRounds p (left ++ s) t right new') :
    PrefersRounds p left (s ++ t) right (new ++ new') where
  tryStar_eq {_ rounds _ _ _} hrounds hk := by
    have hlength : 0 < s.length := List.length_pos_iff.mpr hne
    rw [List.length_append] at hrounds
    obtain ⟨rounds, rfl⟩ : ∃ n, rounds = n + 1 := ⟨rounds - 1, by omega⟩
    rw [tryStar, Option.orElse_eq_or, Option.or_eq_some_iff, List.append_assoc]
    refine .inl (hp.tryMatch_eq ?_)
    rw [if_neg (by simp [Cursor.between, hne])]
    refine hrest.tryStar_eq (by omega) ?_
    rwa [List.append_assoc, List.append_assoc]

/-- A repetition. -/
theorem PrefersRounds.star (h : PrefersRounds p left s right new) :
    Prefers (.star p) left s right new where
  tryMatch_eq hk := by
    rw [tryMatch]
    exact h.tryStar_eq (by simp [Cursor.between]) hk

/-- A fixed text. -/
theorem prefers_text (w : List Char) : Prefers (text w) left w right [] := by
  induction w generalizing left with
  | nil => exact prefers_empty
  | cons c w ih =>
    have hfirst : Prefers (.one (· == c)) left [c] (w ++ right) [] := prefers_one (beq_self_eq_true c)
    exact hfirst.seq ih

/-- One or more characters of a class, all that follow each other. -/
theorem prefers_some (hne : s ≠ []) (hs : ∀ c ∈ s, belongs c) (hstop : Text.Stops belongs right) :
    Prefers (Pattern.some belongs) left s right [] := by
  obtain ⟨c, t, rfl⟩ := List.exists_cons_of_ne_nil hne
  obtain ⟨hc, ht⟩ := List.forall_mem_cons.mp hs
  exact (prefers_one hc).seq (prefers_many ht hstop)

/-- The first of patterns one after the other and the others. -/
theorem Prefers.cons (hp : Prefers p left s (t ++ right) new)
    (hps : Prefers (all ps) (left ++ s) t right new') :
    Prefers (all (p :: ps)) left (s ++ t) right (new ++ new') := hp.seq hps

/-- The last of patterns one after the other. -/
theorem Prefers.single (hp : Prefers p left s right new) : Prefers (all [p]) left s right new := by
  have h : Prefers (all [p]) left (s ++ []) right (new ++ []) := hp.cons prefers_empty
  rwa [List.append_nil, List.append_nil] at h

/-- The stretch that a pattern prefers is its match. -/
theorem matchAfter_of_prefers (h : Prefers p left s right new) :
    p.matchAfter left (s ++ right) = Option.some ⟨left.length, (left ++ s).length,
      new.map fun group => ((s ++ right).drop (group.1 - left.length)).take (group.2 - group.1)⟩ := by
  have hmatch : p.tryMatch (.between left (s ++ right) []) Option.some =
      Option.some (.between (left ++ s) right ([] ++ new)) := h.tryMatch_eq rfl
  rw [matchAfter, matchAt]
  change (p.tryMatch (.between left (s ++ right) []) Option.some).map _ = _
  rw [hmatch]
  rfl

end ImportAtlas.Pattern
