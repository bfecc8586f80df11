import Mathlib.Data.Nat.Notation
import ImportAtlas.Pattern

/-!
# Matching moves on

Whatever a continuation makes of a match, it makes of a cursor that lies further on in the same
text. A pattern that needs a character moves it on by at least one. The stretch of a match follows
from this: it lies in the text and is not empty.
-/

namespace ImportAtlas

namespace Cursor

/-- The second cursor lies further on in the same text; the groups closed between the two lie
between them. -/
structure Leads (c d : Cursor) : Prop where
  position_le : c.position ≤ d.position
  length_eq : d.position + d.rest.length = c.position + c.rest.length
  groups_eq : ∃ new, d.groups = c.groups ++ new ∧
    ∀ g ∈ new, c.position ≤ g.1 ∧ g.1 ≤ g.2 ∧ g.2 ≤ d.position

namespace Leads

variable {c d e : Cursor}

/-- A cursor leads to itself. -/
theorem refl (c : Cursor) : c.Leads c := ⟨Nat.le_refl _, rfl, [], by simp⟩

/-- Where a cursor leads to leads further on. -/
theorem trans (h : c.Leads d) (h' : d.Leads e) : c.Leads e := by
  obtain ⟨hle, hlength, new, hgroups, hnew⟩ := h
  obtain ⟨hle', hlength', new', hgroups', hnew'⟩ := h'
  refine ⟨Nat.le_trans hle hle', hlength'.trans hlength, new ++ new', ?_, fun g hg => ?_⟩
  · rw [hgroups', hgroups, List.append_assoc]
  · rcases List.mem_append.mp hg with hg | hg
    · have := hnew g hg
      omega
    · have := hnew' g hg
      omega

/-- A cursor leads to the next place. -/
theorem next (c : Cursor) {x : Char} {rest : List Char} (h : c.rest = x :: rest) :
    c.Leads (c.next x rest) := by
  refine ⟨Nat.le_succ _, ?_, [], by simp [Cursor.next], by simp⟩
  rw [h, List.length_cons]
  simp only [Cursor.next]
  omega

/-- A group is closed where the cursor has come to. -/
theorem capture (h : c.Leads d) :
    c.Leads { d with groups := d.groups ++ [(c.position, d.position)] } := by
  obtain ⟨hle, hlength, new, hgroups, hnew⟩ := h
  refine ⟨hle, hlength, new ++ [(c.position, d.position)], ?_, fun g hg => ?_⟩
  · rw [hgroups, List.append_assoc]
  · rcases List.mem_append.mp hg with hg | hg
    · exact hnew g hg
    · rw [List.mem_singleton.mp hg]
      exact ⟨Nat.le_refl _, hle, Nat.le_refl _⟩

/-- A cursor that has moved on has fewer characters before it. -/
theorem rest_lt (h : c.Leads d) (hne : d.position ≠ c.position) :
    d.rest.length < c.rest.length := by
  have := h.position_le
  have := h.length_eq
  omega

end Leads

end Cursor

namespace Pattern

/-- Whether a pattern needs at least one character. -/
def advances : Pattern → Bool
  | .one _ => true
  | .seq first second => first.advances || second.advances
  | .alt first second => first.advances && second.advances
  | .capture body => body.advances
  | _ => false

variable {α : Type} {x : α}

/-- A run at the end of a text is empty. -/
theorem tryMany_of_nil {belongs : Char → Bool} {c : Cursor} {k : Cursor → Option α}
    (h : c.rest = []) : tryMany belongs c.before c.position c.groups k c.rest = k c := by
  cases c
  cases h
  rfl

/-- A run takes the next character and goes on, or else it is empty. -/
theorem tryMany_of_cons {belongs : Char → Bool} {c : Cursor} {k : Cursor → Option α} {y : Char}
    {rest : List Char} (h : c.rest = y :: rest) :
    tryMany belongs c.before c.position c.groups k c.rest =
      let d := c.next y rest
      if belongs y then (tryMany belongs d.before d.position d.groups k d.rest).orElse fun _ => k c
      else k c := by
  cases c
  cases h
  rfl

/-- A run ends further on. -/
theorem tryMany_some {belongs : Char → Bool} {c : Cursor} {k : Cursor → Option α}
    (h : tryMany belongs c.before c.position c.groups k c.rest = Option.some x) :
    ∃ d, c.Leads d ∧ k d = Option.some x := by
  obtain ⟨rest, hrest⟩ : ∃ rest, c.rest = rest := ⟨_, rfl⟩
  induction rest generalizing c with
  | nil =>
    rw [tryMany_of_nil hrest] at h
    exact ⟨c, .refl c, h⟩
  | cons y rest ih =>
    rw [tryMany_of_cons hrest] at h
    dsimp only at h
    split at h
    · rw [Option.orElse_eq_or, Option.or_eq_some_iff] at h
      rcases h with hrun | ⟨-, hstay⟩
      · obtain ⟨d, hlead, hd⟩ := ih hrun rfl
        exact ⟨d, (Cursor.Leads.next c hrest).trans hlead, hd⟩
      · exact ⟨c, .refl c, hstay⟩
    · exact ⟨c, .refl c, h⟩

/-- Repeating a step that moves on ends further on. -/
theorem tryStar_some {step : Cursor → (Cursor → Option α) → Option α}
    (hstep : ∀ {c k x}, step c k = Option.some x → ∃ d, c.Leads d ∧ k d = Option.some x)
    {rounds : ℕ} {c : Cursor} {k : Cursor → Option α}
    (h : tryStar step rounds c k = Option.some x) : ∃ d, c.Leads d ∧ k d = Option.some x := by
  induction rounds generalizing c with
  | zero => exact ⟨c, .refl c, h⟩
  | succ rounds ih =>
    rw [tryStar] at h
    rw [Option.orElse_eq_or, Option.or_eq_some_iff] at h
    rcases h with hround | ⟨-, hstay⟩
    · obtain ⟨d, hlead, hd⟩ := hstep hround
      split at hd
      · cases hd
      · obtain ⟨e, hlead', he⟩ := ih hd
        exact ⟨e, hlead.trans hlead', he⟩
    · exact ⟨c, .refl c, hstay⟩

/-- A match ends further on, and not at its start if the pattern needs a character. -/
theorem tryMatch_some {p : Pattern} {c : Cursor} {k : Cursor → Option α}
    (h : p.tryMatch c k = Option.some x) :
    ∃ d, c.Leads d ∧ (p.advances → c.position < d.position) ∧ k d = Option.some x := by
  induction p generalizing c k x with
  | empty => exact ⟨c, .refl c, by simp [advances], h⟩
  | one belongs =>
    rw [tryMatch] at h
    split at h
    · next y rest hrest =>
      split at h
      · exact ⟨_, .next c hrest, fun _ => Nat.lt_succ_self _, h⟩
      · cases h
    · cases h
  | many belongs =>
    obtain ⟨d, hlead, hd⟩ := tryMany_some h
    exact ⟨d, hlead, by simp [advances], hd⟩
  | seq first second ihFirst ihSecond =>
    obtain ⟨d, hlead, hlt, hd⟩ := ihFirst h
    obtain ⟨e, hlead', hlt', he⟩ := ihSecond hd
    refine ⟨e, hlead.trans hlead', fun hadvances => ?_, he⟩
    have := hlead.position_le
    have := hlead'.position_le
    rw [advances, Bool.or_eq_true] at hadvances
    rcases hadvances with hfirst | hsecond
    · have := hlt hfirst
      omega
    · have := hlt' hsecond
      omega
  | alt first second ihFirst ihSecond =>
    rw [tryMatch] at h
    rw [Option.orElse_eq_or, Option.or_eq_some_iff] at h
    rcases h with hfirst | ⟨-, hsecond⟩
    · obtain ⟨d, hlead, hlt, hd⟩ := ihFirst hfirst
      refine ⟨d, hlead, fun hadvances => hlt ?_, hd⟩
      rw [advances, Bool.and_eq_true] at hadvances
      exact hadvances.1
    · obtain ⟨d, hlead, hlt, hd⟩ := ihSecond hsecond
      refine ⟨d, hlead, fun hadvances => hlt ?_, hd⟩
      rw [advances, Bool.and_eq_true] at hadvances
      exact hadvances.2
  | star body ih =>
    have hstep {c : Cursor} {k : Cursor → Option α} {x : α}
        (hbody : body.tryMatch c k = Option.some x) : ∃ d, c.Leads d ∧ k d = Option.some x := by
      obtain ⟨d, hlead, -, hd⟩ := ih hbody
      exact ⟨d, hlead, hd⟩
    obtain ⟨d, hlead, hd⟩ := tryStar_some hstep h
    exact ⟨d, hlead, by simp [advances], hd⟩
  | capture body ih =>
    obtain ⟨d, hlead, hlt, hd⟩ := ih h
    exact ⟨_, hlead.capture, hlt, hd⟩
  | lineStart | textStart | textEnd | wordEdge =>
    rw [tryMatch] at h
    split at h
    · exact ⟨c, .refl c, by simp [advances], h⟩
    · cases h

/-- A match ends further on. -/
theorem tryMatch_leads {p : Pattern} {c : Cursor} {k : Cursor → Option α}
    (h : p.tryMatch c k = Option.some x) : ∃ d, c.Leads d ∧ k d = Option.some x := by
  obtain ⟨d, hlead, -, hd⟩ := tryMatch_some h
  exact ⟨d, hlead, hd⟩

/-- Nothing is repeated at the end of a text. -/
theorem tryStar_of_nil {p : Pattern} {rounds : ℕ} {c : Cursor} {k : Cursor → Option α}
    (h : c.rest = []) : tryStar p.tryMatch rounds c k = k c := by
  cases rounds with
  | zero => rfl
  | succ rounds =>
    have hround : (p.tryMatch c fun d =>
        if d.position = c.position then none else tryStar p.tryMatch rounds d k) = none := by
      refine Option.eq_none_iff_forall_ne_some.mpr fun x hx => ?_
      obtain ⟨d, hlead, hd⟩ := tryMatch_leads hx
      have hposition : d.position = c.position := by
        have hle := hlead.position_le
        have hlength := hlead.length_eq
        rw [h, List.length_nil] at hlength
        omega
      rw [if_pos hposition] at hd
      cases hd
    rw [tryStar, hround]
    rfl

/-- A match begins at its place, ends in the text, and is not empty if the pattern needs a
character. -/
theorem matchAt_some {p : Pattern} {before : Option Char} {position : ℕ} {rest : List Char}
    {m : Match} (h : p.matchAt before position rest = Option.some m) :
    m.start = position ∧ m.stop ≤ position + rest.length ∧ (p.advances → m.start < m.stop) := by
  obtain ⟨c, hc, rfl⟩ := Option.map_eq_some_iff.mp h
  obtain ⟨d, hlead, hlt, hd⟩ := tryMatch_some hc
  cases hd
  refine ⟨rfl, ?_, hlt⟩
  have hlength : c.position + c.rest.length = position + rest.length := hlead.length_eq
  change c.position ≤ position + rest.length
  omega

/-- The first of several patterns matches exactly where one of them does. -/
theorem matchAt_firstOf_isSome {ps : List Pattern} {before : Option Char} {position : ℕ}
    {rest : List Char} :
    ((firstOf ps).matchAt before position rest).isSome ↔
      ∃ p ∈ ps, (p.matchAt before position rest).isSome := by
  induction ps with
  | nil =>
    cases rest <;> simp [firstOf, matchAt, tryMatch]
  | cons p ps ih =>
    cases ps with
    | nil => simp [firstOf]
    | cons p' ps =>
      simp only [List.mem_cons, exists_eq_or_imp] at ih ⊢
      rw [← ih]
      simp only [firstOf, matchAt, Option.isSome_map, tryMatch]
      cases p.tryMatch ⟨before, position, rest, []⟩ Option.some <;> simp

end Pattern

end ImportAtlas
