import ImportAtlas.Proofs.Pattern.Progress

/-!
# Matching in a window

A window is a stretch of a text that begins where a line begins. A pattern that asks for neither end
of the text nor, after its first character, for the edge of a word sees of the text only what it
matches. Within a window it takes the ways that it takes in the text, up to those that leave the
window. So if its first way in the text stays in the window, or if there is none, the window gives
the same.
-/

namespace ImportAtlas

namespace Cursor

/-- The two cursors are at the same place, the first in a text and the second in its window from
`start` to `stop`. -/
structure Within (start stop : ℕ) (c c' : Cursor) : Prop where
  position_eq : c.position = start + c'.position
  position_le : c.position ≤ stop
  stop_le : stop ≤ c.position + c.rest.length
  rest_eq : c'.rest = c.rest.take (stop - c.position)
  groups_eq : c.groups = c'.groups.map fun g => (start + g.1, start + g.2)
  line_eq : c.before.all (· == '\n') = c'.before.all (· == '\n')
  word_eq : Pattern.wordBeside c.before = Pattern.wordBeside c'.before

namespace Within

variable {start stop : ℕ} {c c' d d' : Cursor}

/-- Before the end of the window, both cursors are before the same character. -/
theorem rest_cons (h : Within start stop c c') {x : Char} {rest : List Char}
    (hrest : c.rest = x :: rest) (hlt : c.position < stop) :
    c'.rest = x :: rest.take (stop - (c.position + 1)) := by
  have hsucc : stop - c.position = (stop - (c.position + 1)) + 1 := by omega
  rw [h.rest_eq, hrest, hsucc, List.take_succ_cons]

/-- At the end of the text, nothing is left of the window. -/
theorem rest_nil_of_nil (h : Within start stop c c') (hrest : c.rest = []) : c'.rest = [] := by
  rw [h.rest_eq, hrest, List.take_nil]

/-- At the end of the window, nothing is left of it. -/
theorem rest_nil (h : Within start stop c c') (heq : c.position = stop) : c'.rest = [] := by
  rw [h.rest_eq, heq, Nat.sub_self, List.take_zero]

/-- Both cursors move on together. -/
theorem next (h : Within start stop c c') {x : Char} {rest : List Char}
    (hrest : c.rest = x :: rest) (hlt : c.position < stop) :
    Within start stop (c.next x rest) (c'.next x (rest.take (stop - (c.position + 1)))) := by
  have hposition := h.position_eq
  have hstop := h.stop_le
  rw [hrest, List.length_cons] at hstop
  exact {
    position_eq := by simp only [Cursor.next]; omega
    position_le := hlt
    stop_le := by simp only [Cursor.next]; omega
    rest_eq := rfl
    groups_eq := h.groups_eq
    line_eq := rfl
    word_eq := rfl }

/-- A group is closed in both. -/
theorem capture (h : Within start stop c c') (hd : Within start stop d d') :
    Within start stop { d with groups := d.groups ++ [(c.position, d.position)] }
      { d' with groups := d'.groups ++ [(c'.position, d'.position)] } := by
  have hposition := h.position_eq
  have hposition' := hd.position_eq
  exact { hd with
    groups_eq := by simp [hd.groups_eq, hposition, hposition'] }

end Within

end Cursor

namespace Pattern

open Cursor (Leads Within)

/-- The second outcome, of a window, is that of the text as far as the latter stays in the
window. -/
def Agree (start stop : ℕ) (out out' : Option Cursor) : Prop :=
  (out = none → out' = none) ∧
    ∀ d, out = Option.some d → d.position ≤ stop →
      ∃ d', out' = Option.some d' ∧ Within start stop d d'

variable {start stop : ℕ} {c c' : Cursor} {out out' next next' : Option Cursor}

/-- Nothing agrees with nothing. -/
theorem Agree.none : Agree start stop Option.none Option.none := by simp [Agree]

/-- Cursors at the same place agree. -/
theorem Agree.some (h : Within start stop c c') :
    Agree start stop (Option.some c) (Option.some c') := by
  refine ⟨by simp, fun d hd _ => ⟨c', rfl, ?_⟩⟩
  cases hd
  exact h

/-- What leaves the window agrees with nothing. -/
theorem Agree.of_past (h : ∀ d, out = Option.some d → stop < d.position) :
    Agree start stop out Option.none := by
  refine ⟨fun _ => rfl, fun d hd hle => ?_⟩
  have := h d hd
  omega

/-- First tries that agree, followed by second tries that agree. -/
theorem Agree.orElse (h : Agree start stop out out') (hnext : Agree start stop next next') :
    Agree start stop (out.orElse fun _ => next) (out'.orElse fun _ => next') := by
  cases hout : out with
  | none =>
    rw [h.1 hout]
    exact hnext
  | some d =>
    rw [Option.orElse_some]
    refine ⟨by simp, fun e he hle => ?_⟩
    cases he
    obtain ⟨d', hd', hwithin⟩ := h.2 d hout hle
    rw [hd', Option.orElse_some]
    exact ⟨d', rfl, hwithin⟩

variable {k k' : Cursor → Option Cursor}

/-- The continuations agree from a place on: at the same place in text and window they have
outcomes that agree, and beyond the window they stay beyond it. -/
structure Continues (start stop : ℕ) (c c' : Cursor) (k k' : Cursor → Option Cursor) : Prop where
  agree : ∀ {d d'}, c.Leads d → c'.Leads d' → Within start stop d d' → Agree start stop (k d) (k' d')
  past : ∀ {d e}, c.Leads d → stop < d.position → k d = Option.some e → stop < e.position

/-- Continuations agree further on as well. -/
theorem Continues.of_leads (h : Continues start stop c c' k k') {d d' : Cursor} (hd : c.Leads d)
    (hd' : c'.Leads d') : Continues start stop d d' k k' :=
  ⟨fun he he' => h.agree (hd.trans he) (hd'.trans he'), fun he => h.past (hd.trans he)⟩

/-- What is reached from beyond the window stays beyond it. -/
theorem Continues.past_of_leads (hk : Continues start stop c c' k k') {d e f : Cursor}
    (hd : c.Leads d) (hpast : stop < d.position) (hlead : d.Leads e) (he : k e = Option.some f) :
    stop < f.position :=
  hk.past (hd.trans hlead) (Nat.lt_of_lt_of_le hpast hlead.position_le) he

/-- Single characters agree. -/
theorem agree_one (belongs : Char → Bool) (hk : Continues start stop c c' k k')
    (h : Within start stop c c') :
    Agree start stop ((one belongs).tryMatch c k) ((one belongs).tryMatch c' k') := by
  rw [tryMatch, tryMatch]
  cases hrest : c.rest with
  | nil =>
    rw [h.rest_nil_of_nil hrest]
    exact .none
  | cons x rest =>
    have hnext := Leads.next c hrest
    rcases Nat.lt_or_ge c.position stop with hlt | hge
    · have hrest' := h.rest_cons hrest hlt
      rw [hrest']
      dsimp only
      split
      · exact hk.agree hnext (.next c' hrest') (h.next hrest hlt)
      · exact .none
    · rw [h.rest_nil (Nat.le_antisymm h.position_le hge)]
      dsimp only
      split
      · exact .of_past fun d hd => hk.past hnext (Nat.lt_succ_of_le hge) hd
      · exact .none

/-- Runs of a class agree. -/
theorem agree_tryMany (belongs : Char → Bool) (hk : Continues start stop c c' k k')
    (h : Within start stop c c') :
    Agree start stop (tryMany belongs c.before c.position c.groups k c.rest)
      (tryMany belongs c'.before c'.position c'.groups k' c'.rest) := by
  obtain ⟨rest, hrest⟩ : ∃ rest, c.rest = rest := ⟨_, rfl⟩
  induction rest generalizing c c' with
  | nil =>
    have hstay := hk.agree (.refl c) (.refl c') h
    rw [tryMany_of_nil hrest, tryMany_of_nil (h.rest_nil_of_nil hrest)]
    exact hstay
  | cons x rest ih =>
    have hstay := hk.agree (.refl c) (.refl c') h
    have hnext := Leads.next c hrest
    rcases Nat.lt_or_ge c.position stop with hlt | hge
    · have hrest' := h.rest_cons hrest hlt
      rw [tryMany_of_cons hrest, tryMany_of_cons hrest']
      dsimp only
      split
      · have hrun := ih (hk.of_leads hnext (.next c' hrest')) (h.next hrest hlt) rfl
        exact hrun.orElse hstay
      · exact hstay
    · have hrest' := h.rest_nil (Nat.le_antisymm h.position_le hge)
      rw [tryMany_of_cons hrest, tryMany_of_nil hrest']
      dsimp only
      split
      · refine (Agree.of_past fun d hd => ?_).orElse hstay
        obtain ⟨e, hlead, he⟩ := tryMany_some hd
        exact hk.past_of_leads hnext (Nat.lt_succ_of_le hge) hlead he
      · exact hstay

/-- Repetitions of steps that agree agree, whatever bounds their rounds. -/
theorem agree_tryStar {p : Pattern}
    (hstep : ∀ {c c' k k'}, Continues start stop c c' k k' → Within start stop c c' →
      Agree start stop (p.tryMatch c k) (p.tryMatch c' k'))
    {rounds rounds' : ℕ} (hrounds : c.rest.length ≤ rounds) (hrounds' : c'.rest.length ≤ rounds')
    (hk : Continues start stop c c' k k') (h : Within start stop c c') :
    Agree start stop (tryStar p.tryMatch rounds c k) (tryStar p.tryMatch rounds' c' k') := by
  induction rounds generalizing rounds' c c' with
  | zero =>
    have hrest : c.rest = [] := List.eq_nil_of_length_eq_zero (Nat.le_zero.mp hrounds)
    rw [tryStar_of_nil (h.rest_nil_of_nil hrest)]
    exact hk.agree (.refl c) (.refl c') h
  | succ rounds ih =>
    have hstay := hk.agree (.refl c) (.refl c') h
    have hle := h.position_le
    have hround {d e : Cursor} (hd : c.Leads d) (hpast : stop < d.position)
        (he : (if d.position = c.position then Option.none
          else tryStar p.tryMatch rounds d k) = Option.some e) : stop < e.position := by
      split at he
      · cases he
      · obtain ⟨f, hlead, hf⟩ := tryStar_some tryMatch_leads he
        exact hk.past_of_leads hd hpast hlead hf
    rw [tryStar]
    rcases Nat.lt_or_ge c.position stop with hlt | hge
    · cases rounds' with
      | zero =>
        have hlength := congrArg List.length h.rest_eq
        rw [List.length_take] at hlength
        have hstop := h.stop_le
        omega
      | succ rounds' =>
        rw [tryStar]
        refine (hstep ⟨fun {d d'} hd hd' hwithin => ?_, hround⟩ h).orElse hstay
        have hposition := h.position_eq
        have hposition' := hwithin.position_eq
        by_cases hmoved : d.position = c.position
        · rw [if_pos hmoved, if_pos (by omega)]
          exact .none
        · rw [if_neg hmoved, if_neg (by omega)]
          have hrest := hd.rest_lt hmoved
          have hrest' := hd'.rest_lt (by omega)
          exact ih (by omega) (by omega) (hk.of_leads hd hd') hwithin
    · -- At the end of the window each round leaves it.
      rw [tryStar_of_nil (h.rest_nil (Nat.le_antisymm hle hge))]
      refine (Agree.of_past fun e he => ?_).orElse hstay
      obtain ⟨d, hlead, hd⟩ := tryMatch_leads he
      refine hround hlead ?_ hd
      split at hd
      · cases hd
      · next hmoved =>
        have := hlead.position_le
        omega

/-- Whether a pattern asks for no end of the text and for no edge of a word. -/
def isLocal : Pattern → Bool
  | .seq first second => first.isLocal && second.isLocal
  | .alt first second => first.isLocal && second.isLocal
  | .star body => body.isLocal
  | .capture body => body.isLocal
  | .textStart | .textEnd | .wordEdge => false
  | _ => true

/-- A local pattern takes the ways in a window that it takes in the text. -/
theorem agree_tryMatch {p : Pattern} (hlocal : p.isLocal) (hk : Continues start stop c c' k k')
    (h : Within start stop c c') : Agree start stop (p.tryMatch c k) (p.tryMatch c' k') := by
  induction p generalizing c c' k k' with
  | empty => exact hk.agree (.refl c) (.refl c') h
  | one belongs => exact agree_one belongs hk h
  | many belongs => exact agree_tryMany belongs hk h
  | seq first second ihFirst ihSecond =>
    rw [isLocal, Bool.and_eq_true] at hlocal
    refine ihFirst hlocal.1 ⟨fun hd hd' => ihSecond hlocal.2 (hk.of_leads hd hd'), ?_⟩ h
    intro d e hd hpast he
    obtain ⟨f, hlead, hf⟩ := tryMatch_leads he
    exact hk.past_of_leads hd hpast hlead hf
  | alt first second ihFirst ihSecond =>
    rw [isLocal, Bool.and_eq_true] at hlocal
    exact (ihFirst hlocal.1 hk h).orElse (ihSecond hlocal.2 hk h)
  | star body ih =>
    exact agree_tryStar (ih hlocal) (Nat.le_refl _) (Nat.le_refl _) hk h
  | capture body ih =>
    refine ih hlocal ⟨fun hd hd' hwithin => ?_, fun hd hpast he => ?_⟩ h
    · exact hk.agree hd.capture hd'.capture (h.capture hwithin)
    · exact hk.past hd.capture hpast he
  | lineStart =>
    rw [tryMatch, tryMatch, h.line_eq]
    split
    · exact hk.agree (.refl c) (.refl c') h
    · exact .none
  | textStart | textEnd | wordEdge => cases hlocal

/-- Whether a pattern asks for no end of the text, and for the edge of a word at its start at
most. -/
def isWindowed : Pattern → Bool
  | .seq .wordEdge p => p.isLocal
  | p => p.isLocal

/-- Before the end of the window, text and window have the same edges of words. -/
theorem wordEdge_within (h : Within start stop c c') (hlt : c.position < stop) :
    (wordBeside c.before != wordBeside c.rest.head?) =
      (wordBeside c'.before != wordBeside c'.rest.head?) := by
  cases hrest : c.rest with
  | nil =>
    have hstop := h.stop_le
    rw [hrest, List.length_nil] at hstop
    omega
  | cons x rest =>
    rw [h.word_eq, h.rest_cons hrest hlt]
    rfl

/-- Where something is left of the window, a windowed pattern takes the ways in it that it takes in
the text. -/
theorem agree_tryMatch_of_lt {p : Pattern} (hwindowed : p.isWindowed)
    (h : Within start stop c c') (hlt : c.position < stop) :
    Agree start stop (p.tryMatch c Option.some) (p.tryMatch c' Option.some) := by
  have hk : Continues start stop c c' Option.some Option.some :=
    ⟨fun _ _ hwithin => .some hwithin, fun _ hpast he => by cases he; exact hpast⟩
  unfold isWindowed at hwindowed
  split at hwindowed
  · next p =>
    rw [tryMatch, tryMatch, tryMatch, tryMatch, wordEdge_within h hlt]
    split
    · exact agree_tryMatch hwindowed hk h
    · exact .none
  · exact agree_tryMatch hwindowed hk h

/-- A match as it stands in a text that has characters before what was searched. -/
def Match.shift (distance : ℕ) (m : Match) : Match :=
  ⟨distance + m.start, distance + m.stop, m.groups⟩

section Window

variable {p : Pattern} {before before' : Option Char} {position : ℕ} {window : List Char}
  {after : List Char}

/-- The cursors before what is left of a window. -/
theorem within_window (start position : ℕ) (after : List Char)
    (hline : before.all (· == '\n') = before'.all (· == '\n'))
    (hword : wordBeside before = wordBeside before') :
    Within start (start + position + window.length) ⟨before, start + position, window ++ after, []⟩
      ⟨before', position, window, []⟩ where
  position_eq := rfl
  position_le := Nat.le_add_right _ _
  stop_le := by
    rw [List.length_append]
    exact Nat.add_le_add_left (Nat.le_add_right _ _) _
  rest_eq := by
    rw [Nat.add_sub_cancel_left, List.take_left]
  groups_eq := rfl
  line_eq := hline
  word_eq := hword

/-- Where there is no match in the text, there is none in the window. -/
theorem matchAt_window_of_none (hp : p.isWindowed) (hwindow : window ≠ [])
    (hline : before.all (· == '\n') = before'.all (· == '\n'))
    (hword : wordBeside before = wordBeside before')
    (h : p.matchAt before (start + position) (window ++ after) = none) :
    p.matchAt before' position window = none := by
  have hlt : start + position < start + position + window.length :=
    Nat.lt_add_of_pos_right (List.length_pos_iff.mpr hwindow)
  have hagree := agree_tryMatch_of_lt hp (within_window start position after hline hword) hlt
  rw [matchAt, Option.map_eq_none_iff] at h ⊢
  exact hagree.1 h

/-- Where a match in the text stays in the window, it is the match in the window. -/
theorem matchAt_window_of_some (hp : p.isWindowed) (hwindow : window ≠ [])
    (hline : before.all (· == '\n') = before'.all (· == '\n'))
    (hword : wordBeside before = wordBeside before') {m : Match}
    (h : p.matchAt before (start + position) (window ++ after) = Option.some m)
    (hstop : m.stop ≤ start + position + window.length) :
    ∃ m', p.matchAt before' position window = Option.some m' ∧ m = m'.shift start := by
  have hlt : start + position < start + position + window.length :=
    Nat.lt_add_of_pos_right (List.length_pos_iff.mpr hwindow)
  have hagree := agree_tryMatch_of_lt hp (within_window start position after hline hword) hlt
  obtain ⟨d, hd, rfl⟩ := Option.map_eq_some_iff.mp h
  obtain ⟨d', hd', hwithin⟩ := hagree.2 d hd hstop
  refine ⟨_, by rw [matchAt, hd']; rfl, ?_⟩
  obtain ⟨e, hlead, he⟩ := tryMatch_leads hd'
  cases he
  obtain ⟨new, hnew, hbounds⟩ := hlead.groups_eq
  have hposition := hwithin.position_eq
  -- What was captured lies between the place and the end of the match, so in the window.
  have hgroups : (d.groups.map fun g =>
      ((window ++ after).drop (g.1 - (start + position))).take (g.2 - g.1)) =
      d'.groups.map fun g => (window.drop (g.1 - position)).take (g.2 - g.1) := by
    rw [hwithin.groups_eq, List.map_map]
    refine List.map_congr_left fun g hg => ?_
    have hbound := hbounds g (by simpa [hnew] using hg)
    simp only at hbound
    have hstop' : d.position ≤ start + position + window.length := hstop
    have hfrom : start + g.1 - (start + position) = g.1 - position := by omega
    have hcount : start + g.2 - (start + g.1) = g.2 - g.1 := by omega
    simp only [Function.comp_apply, hfrom, hcount]
    rw [List.drop_append_of_le_length (by omega), List.take_append_of_le_length]
    rw [List.length_drop]
    omega
  simp only [Match.shift, hposition]
  exact congrArg _ hgroups

end Window

end Pattern

end ImportAtlas
