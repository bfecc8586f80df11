import ImportAtlas.Proofs.Pattern.Scanning

/-!
# The language of a pattern

A pattern accepts a stretch of text between what stands before it and what stands behind it, and
captures parts of the stretch. The stretch of a match is accepted, with what its groups captured,
and wherever a stretch is accepted there is a match. Which of several stretches is matched depends
on the order in which they are tried; where the text leaves a pattern no choice, nothing about that
order is needed to say what is found.
-/

namespace ImportAtlas

/-- The cursor where a text is cut in two. -/
def Cursor.between (left right : List Char) (groups : List (ℕ × ℕ)) : Cursor :=
  ⟨left.getLast?, left.length, right, groups⟩

/-- The cursor behind the next character. -/
theorem Cursor.next_between (left right : List Char) (groups : List (ℕ × ℕ)) (x : Char) :
    (Cursor.between left (x :: right) groups).next x right =
      Cursor.between (left ++ [x]) right groups := by
  simp [between, next]

/-- Where nothing is taken and nothing captured, the cursor stays. -/
theorem Cursor.between_nil (left right : List Char) (groups : List (ℕ × ℕ)) :
    Cursor.between (left ++ []) right (groups ++ []) = .between left right groups := by
  rw [List.append_nil, List.append_nil]

namespace Pattern

/-- Stretches accepted one after the other, none of them empty. -/
inductive Rounds (accepts : List Char → List Char → List Char → List (List Char) → Prop) :
    List Char → List Char → List Char → List (List Char) → Prop
  /-- No stretch at all. -/
  | nil {left right : List Char} : Rounds accepts left [] right []
  /-- One stretch and the stretches behind it. -/
  | cons {left s t right : List Char} {gs hs : List (List Char)} (hne : s ≠ [])
      (hround : accepts left s (t ++ right) gs) (hrounds : Rounds accepts (left ++ s) t right hs) :
      Rounds accepts left (s ++ t) right (gs ++ hs)

/-- A pattern accepts a stretch between two texts and captures parts of it. -/
def Accepts : Pattern → List Char → List Char → List Char → List (List Char) → Prop
  | .empty, _, s, _, gs => s = [] ∧ gs = []
  | .one belongs, _, s, _, gs => (∃ c, belongs c ∧ s = [c]) ∧ gs = []
  | .many belongs, _, s, _, gs => (∀ c ∈ s, belongs c) ∧ gs = []
  | .seq first second, left, s, right, gs => ∃ s₁ s₂ gs₁ gs₂, s = s₁ ++ s₂ ∧ gs = gs₁ ++ gs₂ ∧
      first.Accepts left s₁ (s₂ ++ right) gs₁ ∧ second.Accepts (left ++ s₁) s₂ right gs₂
  | .alt first second, left, s, right, gs =>
    first.Accepts left s right gs ∨ second.Accepts left s right gs
  | .star body, left, s, right, gs => Rounds body.Accepts left s right gs
  | .capture body, left, s, right, gs => ∃ inner, body.Accepts left s right inner ∧ gs = inner ++ [s]
  | .lineStart, left, s, _, gs => left.getLast?.all (· == '\n') ∧ s = [] ∧ gs = []
  | .textStart, left, s, _, gs => left = [] ∧ s = [] ∧ gs = []
  | .textEnd, _, s, right, gs => (right = [] ∨ right = ['\n']) ∧ s = [] ∧ gs = []
  | .wordEdge, left, s, right, gs =>
    (wordBeside left.getLast? != wordBeside right.head?) ∧ s = [] ∧ gs = []

/-- What stands between two places of a text. -/
def between (text : List Char) (group : ℕ × ℕ) : List Char :=
  (text.drop group.1).take (group.2 - group.1)

/-- What stands between two texts. -/
theorem between_append (left s right : List Char) :
    between (left ++ (s ++ right)) (left.length, (left ++ s).length) = s := by
  simp [between]

variable {α : Type} {x : α}

/-- One character that succeeds belongs to its class, and matching goes on behind it. -/
theorem exists_of_tryMatch_one {belongs : Char → Bool} {left rest : List Char}
    {groups : List (ℕ × ℕ)} {k : Cursor → Option α}
    (h : (one belongs).tryMatch (.between left rest groups) k = Option.some x) :
    ∃ c right, rest = c :: right ∧ belongs c ∧
      k (.between (left ++ [c]) right groups) = Option.some x := by
  cases rest with
  | nil => cases h
  | cons c right =>
    rw [tryMatch] at h
    dsimp only [Cursor.between] at h
    split at h
    · next hc =>
      rw [← Cursor.between, Cursor.next_between] at h
      exact ⟨c, right, rfl, hc, h⟩
    · cases h

/-- A run that succeeds takes characters of its class. -/
theorem accepts_of_tryMany {belongs : Char → Bool} {left rest : List Char} {groups : List (ℕ × ℕ)}
    {k : Cursor → Option α}
    (h : tryMany belongs left.getLast? left.length groups k rest = Option.some x) :
    ∃ s right, rest = s ++ right ∧ (∀ c ∈ s, belongs c) ∧
      k (.between (left ++ s) right groups) = Option.some x := by
  have hstay (hk : k (.between left rest groups) = Option.some x) :
      ∃ s right, rest = s ++ right ∧ (∀ c ∈ s, belongs c) ∧
        k (.between (left ++ s) right groups) = Option.some x :=
    ⟨[], rest, rfl, by simp, by rwa [List.append_nil]⟩
  induction rest generalizing left with
  | nil => exact hstay h
  | cons y rest ih =>
    rw [tryMany] at h
    split at h
    · next hy =>
      rw [Option.orElse_eq_or, Option.or_eq_some_iff] at h
      rcases h with hrun | ⟨-, hk⟩
      · have hnext : tryMany belongs (left ++ [y]).getLast? (left ++ [y]).length groups k rest =
            Option.some x := by
          rw [List.getLast?_concat, List.length_append]
          exact hrun
        obtain ⟨s, right, rfl, hs, hk⟩ := ih hnext fun hk =>
          ⟨[], rest, rfl, by simp, by rwa [List.append_nil]⟩
        exact ⟨y :: s, right, rfl, List.forall_mem_cons.mpr ⟨hy, hs⟩, by
          rwa [List.append_assoc] at hk⟩
      · exact hstay hk
    · exact hstay h

/-- The repetitions that succeed take rounds that the step takes. -/
theorem accepts_of_tryStar {accepts : List Char → List Char → List Char → List (List Char) → Prop}
    {step : Cursor → (Cursor → Option α) → Option α} {text : List Char}
    (hstep : ∀ {left rest groups k x}, left ++ rest = text →
      step (.between left rest groups) k = Option.some x → ∃ s right new, rest = s ++ right ∧
        accepts left s right (new.map (between text)) ∧
          k (.between (left ++ s) right (groups ++ new)) = Option.some x)
    {rounds : ℕ} {left rest : List Char} {groups : List (ℕ × ℕ)} {k : Cursor → Option α}
    (htext : left ++ rest = text)
    (h : tryStar step rounds (.between left rest groups) k = Option.some x) :
    ∃ s right new, rest = s ++ right ∧ Rounds accepts left s right (new.map (between text)) ∧
      k (.between (left ++ s) right (groups ++ new)) = Option.some x := by
  induction rounds generalizing left rest groups with
  | zero => exact ⟨[], rest, [], rfl, .nil, by rwa [Cursor.between_nil]⟩
  | succ rounds ih =>
    rw [tryStar, Option.orElse_eq_or, Option.or_eq_some_iff] at h
    rcases h with hround | ⟨-, hk⟩
    · obtain ⟨s, right, new, rfl, hs, hd⟩ := hstep htext hround
      split at hd
      · cases hd
      · next hmoved =>
        have hne : s ≠ [] := by
          rintro rfl
          exact hmoved (by simp [Cursor.between])
        obtain ⟨t, right, new', rfl, ht, hk⟩ := ih (by rwa [List.append_assoc]) hd
        refine ⟨s ++ t, right, new ++ new', by rw [List.append_assoc], ?_, ?_⟩
        · rw [List.map_append]
          exact .cons hne hs ht
        · rwa [← List.append_assoc, ← List.append_assoc]
    · exact ⟨[], rest, [], rfl, .nil, by rwa [Cursor.between_nil]⟩

/-- A match that succeeds takes a stretch that the pattern accepts. -/
theorem accepts_of_tryMatch {p : Pattern} {left rest : List Char} {groups : List (ℕ × ℕ)}
    {k : Cursor → Option α} {text : List Char} (htext : left ++ rest = text)
    (h : p.tryMatch (.between left rest groups) k = Option.some x) :
    ∃ s right new, rest = s ++ right ∧ p.Accepts left s right (new.map (between text)) ∧
      k (.between (left ++ s) right (groups ++ new)) = Option.some x := by
  induction p generalizing left rest groups k x with
  | empty => exact ⟨[], rest, [], rfl, ⟨rfl, rfl⟩, by rwa [Cursor.between_nil]⟩
  | one belongs =>
    obtain ⟨c, right, rfl, hc, hk⟩ := exists_of_tryMatch_one h
    exact ⟨[c], right, [], rfl, ⟨⟨c, hc, rfl⟩, rfl⟩, by rwa [List.append_nil]⟩
  | many belongs =>
    obtain ⟨s, right, hsplit, hs, hk⟩ := accepts_of_tryMany h
    exact ⟨s, right, [], hsplit, ⟨hs, rfl⟩, by rwa [List.append_nil]⟩
  | seq first second ihFirst ihSecond =>
    obtain ⟨s, right, new, rfl, hs, hd⟩ := ihFirst htext h
    obtain ⟨t, right, new', rfl, ht, hk⟩ := ihSecond (by rwa [List.append_assoc]) hd
    refine ⟨s ++ t, right, new ++ new', by rw [List.append_assoc], ?_, ?_⟩
    · exact ⟨s, t, _, _, rfl, List.map_append, hs, ht⟩
    · rwa [← List.append_assoc, ← List.append_assoc]
  | alt first second ihFirst ihSecond =>
    rw [tryMatch, Option.orElse_eq_or, Option.or_eq_some_iff] at h
    rcases h with hfirst | ⟨-, hsecond⟩
    · obtain ⟨s, right, new, hsplit, hs, hk⟩ := ihFirst htext hfirst
      exact ⟨s, right, new, hsplit, .inl hs, hk⟩
    · obtain ⟨s, right, new, hsplit, hs, hk⟩ := ihSecond htext hsecond
      exact ⟨s, right, new, hsplit, .inr hs, hk⟩
  | star body ih => exact accepts_of_tryStar ih htext h
  | capture body ih =>
    obtain ⟨s, right, new, rfl, hs, hk⟩ := ih htext h
    refine ⟨s, right, new ++ [(left.length, (left ++ s).length)], rfl, ?_, ?_⟩
    · refine ⟨_, hs, ?_⟩
      rw [List.map_append, List.map_singleton, ← htext, between_append]
    · rwa [← List.append_assoc]
  | lineStart =>
    rw [tryMatch] at h
    split at h
    · next hline => exact ⟨[], rest, [], rfl, ⟨hline, rfl, rfl⟩, by rwa [Cursor.between_nil]⟩
    · cases h
  | textStart =>
    rw [tryMatch] at h
    split at h
    · next hstart =>
      have hleft : left = [] := List.getLast?_eq_none_iff.mp (Option.isNone_iff_eq_none.mp hstart)
      exact ⟨[], rest, [], rfl, ⟨hleft, rfl, rfl⟩, by rwa [Cursor.between_nil]⟩
    · cases h
  | textEnd =>
    rw [tryMatch] at h
    split at h
    · next hend => exact ⟨[], rest, [], rfl, ⟨hend, rfl, rfl⟩, by rwa [Cursor.between_nil]⟩
    · cases h
  | wordEdge =>
    rw [tryMatch] at h
    split at h
    · next hedge => exact ⟨[], rest, [], rfl, ⟨hedge, rfl, rfl⟩, by rwa [Cursor.between_nil]⟩
    · cases h

/-- Places behind the cut of a text are places of its second part. -/
theorem between_right {left : List Char} {group : ℕ × ℕ} (h : left.length ≤ group.1)
    (rest : List Char) : between (left ++ rest) group =
      (rest.drop (group.1 - left.length)).take (group.2 - group.1) := by
  rw [between, List.drop_append, List.drop_of_length_le h, List.nil_append]

/-- A match takes a stretch that the pattern accepts, and its groups are what is captured of it. -/
theorem accepts_of_matchAfter {p : Pattern} {left rest : List Char} {m : Match}
    (h : p.matchAfter left rest = Option.some m) :
    ∃ s right, rest = s ++ right ∧ p.Accepts left s right m.groups ∧ m.start = left.length ∧
      m.stop = (left ++ s).length := by
  obtain ⟨c, hc, rfl⟩ := Option.map_eq_some_iff.mp h
  obtain ⟨s, right, new, rfl, hs, hk⟩ := accepts_of_tryMatch rfl hc
  obtain ⟨d, hlead, hd⟩ := tryMatch_leads hc
  cases hk
  cases hd
  obtain ⟨new', hnew, hbounds⟩ := hlead.groups_eq
  have hgroups : new = new' := by simpa [Cursor.between] using hnew
  have hcaptured : new.map (between (left ++ (s ++ right))) = new.map fun group =>
      ((s ++ right).drop (group.1 - left.length)).take (group.2 - group.1) :=
    List.map_congr_left fun group hgroup =>
      between_right (hbounds group (hgroups ▸ hgroup)).1 (s ++ right)
  rw [hcaptured] at hs
  exact ⟨s, right, rfl, hs, rfl, rfl⟩

/-- A run succeeds if it does so after some characters of its class. -/
theorem isSome_tryMany {belongs : Char → Bool} {left s right : List Char} {groups : List (ℕ × ℕ)}
    {k : Cursor → Option α} (hs : ∀ c ∈ s, belongs c)
    (hk : (k (.between (left ++ s) right groups)).isSome) :
    (tryMany belongs left.getLast? left.length groups k (s ++ right)).isSome := by
  induction s generalizing left with
  | nil =>
    rw [List.append_nil] at hk
    cases right with
    | nil => exact hk
    | cons y right =>
      rw [List.nil_append, tryMany]
      split
      · rw [Option.orElse_eq_or, Option.isSome_or, Bool.or_eq_true]
        exact .inr hk
      · exact hk
  | cons y s ih =>
    obtain ⟨hy, hs⟩ := List.forall_mem_cons.mp hs
    have hrun := @ih (left ++ [y]) hs (by rwa [List.append_assoc])
    rw [List.getLast?_concat, List.length_append] at hrun
    rw [List.cons_append, tryMany, if_pos hy, Option.orElse_eq_or, Option.isSome_or,
      Bool.or_eq_true]
    exact .inl hrun

/-- A repetition succeeds if it does so after some rounds, whatever bounds them. -/
theorem isSome_tryStar {accepts : List Char → List Char → List Char → List (List Char) → Prop}
    {step : Cursor → (Cursor → Option α) → Option α}
    (hstep : ∀ {left s right gs groups k}, accepts left s right gs →
      (∀ groups, (k (.between (left ++ s) right groups)).isSome) →
        (step (.between left (s ++ right) groups) k).isSome)
    {left s right : List Char} {gs : List (List Char)} (h : Rounds accepts left s right gs)
    {rounds : ℕ} (hrounds : s.length ≤ rounds) {groups : List (ℕ × ℕ)} {k : Cursor → Option α}
    (hk : ∀ groups, (k (.between (left ++ s) right groups)).isSome) :
    (tryStar step rounds (.between left (s ++ right) groups) k).isSome := by
  induction h generalizing rounds groups with
  | @nil left right =>
    rw [List.append_nil] at hk
    cases rounds with
    | zero => exact hk groups
    | succ rounds =>
      rw [tryStar, Option.orElse_eq_or, Option.isSome_or, Bool.or_eq_true]
      exact .inr (hk groups)
  | @cons left s t right gs hs hne hround _ ih =>
    have hlength : 0 < s.length := List.length_pos_iff.mpr hne
    rw [List.length_append] at hrounds
    obtain ⟨rounds, rfl⟩ : ∃ n, rounds = n + 1 := ⟨rounds - 1, by omega⟩
    rw [tryStar, Option.orElse_eq_or, Option.isSome_or, Bool.or_eq_true, List.append_assoc]
    refine .inl (hstep hround fun groups => ?_)
    rw [if_neg (by simp [Cursor.between, hne])]
    exact ih (by omega) fun groups => by rw [List.append_assoc]; exact hk groups

/-- Where a pattern accepts a stretch behind which matching can go on, it can be matched. -/
theorem isSome_tryMatch {p : Pattern} {left s right : List Char} {gs : List (List Char)}
    {groups : List (ℕ × ℕ)} {k : Cursor → Option α} (h : p.Accepts left s right gs)
    (hk : ∀ groups, (k (.between (left ++ s) right groups)).isSome) :
    (p.tryMatch (.between left (s ++ right) groups) k).isSome := by
  induction p generalizing left s right gs groups k with
  | empty =>
    obtain ⟨rfl, -⟩ := h
    rw [List.append_nil] at hk
    exact hk groups
  | one belongs =>
    obtain ⟨⟨c, hc, rfl⟩, -⟩ := h
    rw [tryMatch]
    dsimp only [Cursor.between, List.singleton_append]
    rw [if_pos hc, ← Cursor.between, Cursor.next_between]
    exact hk groups
  | many belongs =>
    exact isSome_tryMany h.1 (hk groups)
  | seq first second ihFirst ihSecond =>
    obtain ⟨s, t, gs, hs, rfl, rfl, hfirst, hsecond⟩ := h
    rw [tryMatch, List.append_assoc]
    refine ihFirst hfirst fun groups => ihSecond hsecond fun groups => ?_
    rw [List.append_assoc]
    exact hk groups
  | alt first second ihFirst ihSecond =>
    rw [tryMatch, Option.orElse_eq_or, Option.isSome_or, Bool.or_eq_true]
    exact h.imp (ihFirst · hk) (ihSecond · hk)
  | star body ih =>
    have hrounds : s.length ≤ (s ++ right).length := by simp
    exact isSome_tryStar ih h hrounds hk
  | capture body ih =>
    obtain ⟨gs, hbody, -⟩ := h
    exact ih hbody fun groups => hk _
  | lineStart =>
    obtain ⟨hline, rfl, -⟩ := h
    rw [List.append_nil] at hk
    rw [tryMatch, if_pos (by exact hline)]
    exact hk groups
  | textStart =>
    obtain ⟨rfl, rfl, -⟩ := h
    exact hk groups
  | textEnd =>
    obtain ⟨hend, rfl, -⟩ := h
    rw [List.append_nil] at hk
    rw [tryMatch, if_pos (by exact hend)]
    exact hk groups
  | wordEdge =>
    obtain ⟨hedge, rfl, -⟩ := h
    rw [List.append_nil] at hk
    rw [tryMatch, if_pos (by exact hedge)]
    exact hk groups

/-- Where a pattern accepts a stretch, it has a match. -/
theorem isSome_matchAfter {p : Pattern} {left s right : List Char} {gs : List (List Char)}
    (h : p.Accepts left s right gs) : (p.matchAfter left (s ++ right)).isSome := by
  rw [matchAfter, matchAt, Option.isSome_map]
  exact @isSome_tryMatch _ p left s right gs [] Option.some h fun _ => rfl

/-- Whether a pattern has no group. -/
def isSilent : Pattern → Bool
  | .seq first second => first.isSilent && second.isSilent
  | .alt first second => first.isSilent && second.isSilent
  | .star body => body.isSilent
  | .capture _ => false
  | _ => true

/-- A pattern without groups captures nothing. -/
theorem eq_nil_of_isSilent {p : Pattern} {left s right : List Char} {gs : List (List Char)}
    (hsilent : p.isSilent) (h : p.Accepts left s right gs) : gs = [] := by
  induction p generalizing left s right gs with
  | empty | one | many => exact h.2
  | lineStart | textStart | textEnd | wordEdge => exact h.2.2
  | seq first second ihFirst ihSecond =>
    rw [isSilent, Bool.and_eq_true] at hsilent
    obtain ⟨s, t, gs, hs, rfl, rfl, hfirst, hsecond⟩ := h
    rw [ihFirst hsilent.1 hfirst, ihSecond hsilent.2 hsecond]
    rfl
  | alt first second ihFirst ihSecond =>
    rw [isSilent, Bool.and_eq_true] at hsilent
    exact h.elim (ihFirst hsilent.1) (ihSecond hsilent.2)
  | star body ih =>
    have hrounds : Rounds body.Accepts left s right gs := h
    clear h
    induction hrounds with
    | nil => rfl
    | cons _ hround _ ihRounds =>
      rw [ih hsilent hround, ihRounds]
      rfl
  | capture body => cases hsilent

section Combinators

variable {p : Pattern} {ps : List Pattern} {left s right : List Char} {gs : List (List Char)}

/-- A fixed text accepts itself. -/
@[simp]
theorem accepts_text {w : List Char} : (text w).Accepts left s right gs ↔ s = w ∧ gs = [] := by
  induction w generalizing left s gs with
  | nil => rfl
  | cons x w ih =>
    constructor
    · rintro ⟨s, t, gs, hs, rfl, rfl, ⟨⟨c, hc, rfl⟩, rfl⟩, hrest⟩
      obtain ⟨rfl, rfl⟩ := ih.mp hrest
      rw [beq_iff_eq.mp hc]
      exact ⟨rfl, rfl⟩
    · rintro ⟨rfl, rfl⟩
      exact ⟨[x], w, [], [], rfl, rfl, ⟨⟨x, beq_self_eq_true x, rfl⟩, rfl⟩, ih.mpr ⟨rfl, rfl⟩⟩

/-- One or more characters of a class. -/
@[simp]
theorem accepts_some {belongs : Char → Bool} :
    (Pattern.some belongs).Accepts left s right gs ↔ s ≠ [] ∧ (∀ c ∈ s, belongs c) ∧ gs = [] := by
  constructor
  · rintro ⟨s, t, gs, hs, rfl, rfl, ⟨⟨c, hc, rfl⟩, rfl⟩, ht, rfl⟩
    exact ⟨by simp, List.forall_mem_cons.mpr ⟨hc, ht⟩, rfl⟩
  · rintro ⟨hne, hs, rfl⟩
    obtain ⟨c, t, rfl⟩ := List.exists_cons_of_ne_nil hne
    obtain ⟨hc, ht⟩ := List.forall_mem_cons.mp hs
    exact ⟨[c], t, [], [], rfl, rfl, ⟨⟨c, hc, rfl⟩, rfl⟩, ht, rfl⟩

/-- Two lists of patterns one after the other. -/
theorem accepts_all_append {qs : List Pattern} : (all (ps ++ qs)).Accepts left s right gs ↔
    ∃ s₁ s₂ gs₁ gs₂, s = s₁ ++ s₂ ∧ gs = gs₁ ++ gs₂ ∧ (all ps).Accepts left s₁ (s₂ ++ right) gs₁ ∧
      (all qs).Accepts (left ++ s₁) s₂ right gs₂ := by
  induction ps generalizing left s gs with
  | nil =>
    constructor
    · intro h
      exact ⟨[], s, [], gs, rfl, rfl, ⟨rfl, rfl⟩, by rwa [List.append_nil]⟩
    · rintro ⟨s, t, gs, hs, rfl, rfl, ⟨rfl, rfl⟩, h⟩
      rwa [List.append_nil] at h
  | cons p ps ih =>
    constructor
    · rintro ⟨s, t, gs, hs, rfl, rfl, hp, h⟩
      obtain ⟨t, u, hs, hs', rfl, rfl, hps, hqs⟩ := ih.mp h
      rw [List.append_assoc] at hp hqs
      exact ⟨s ++ t, u, gs ++ hs, hs', by simp, by simp, ⟨s, t, gs, hs, rfl, rfl, by simpa using hp, hps⟩,
        hqs⟩
    · rintro ⟨s, u, gs, hs', rfl, rfl, ⟨s, t, gs, hs, rfl, rfl, hp, hps⟩, hqs⟩
      refine ⟨s, t ++ u, gs, hs ++ hs', by simp, by simp, by simpa using hp, ih.mpr ?_⟩
      exact ⟨t, u, hs, hs', rfl, rfl, hps, by rwa [List.append_assoc]⟩

/-- The first of several patterns accepts what one of them accepts. -/
theorem accepts_firstOf : (firstOf ps).Accepts left s right gs ↔
    ∃ p ∈ ps, p.Accepts left s right gs := by
  induction ps with
  | nil => simp [firstOf, Accepts]
  | cons p ps ih =>
    cases ps with
    | nil => simp [firstOf]
    | cons p' ps =>
      have hsplit : (∃ q ∈ p :: p' :: ps, q.Accepts left s right gs) ↔
          p.Accepts left s right gs ∨ ∃ q ∈ p' :: ps, q.Accepts left s right gs := by
        simp only [List.mem_cons, exists_eq_or_imp]
      rw [hsplit]
      exact or_congr_right ih

end Combinators

end Pattern

end ImportAtlas
