import Mathlib.Data.List.Basic
import ImportAtlas.Proofs.Pattern.Scanning
import ImportAtlas.Search.Window

/-!
# The stretches that matches touch

Stretches are collected match by match. They follow each other without a common place, each begins
where a line begins, and every match lies in one of them. A search therefore cuts a text into windows
at the borders of lines, and misses no match of its pattern.
-/

namespace ImportAtlas

/-- The line of a place begins at the place or before it. -/
theorem lineStart_le (text : List Char) (place : ℕ) : lineStart text place ≤ place :=
  Nat.sub_le _ _

/-- A line begins where the line of a place begins. -/
theorem beginsLine_lineStart {text : List Char} {place : ℕ} (h : place ≤ text.length) :
    BeginsLine text (lineStart text place) := by
  let back := (text.take place).reverse
  have hback : back.takeWhile (· != '\n') ++ back.dropWhile (· != '\n') = back :=
    List.takeWhile_append_dropWhile
  have hlength : (back.takeWhile (· != '\n')).length + (back.dropWhile (· != '\n')).length = place := by
    rw [← List.length_append, hback, List.length_reverse, List.length_take, Nat.min_eq_left h]
  have htake : text.take (lineStart text place) = (back.dropWhile (· != '\n')).reverse := by
    have hstart : lineStart text place = (back.dropWhile (· != '\n')).length := by
      change place - (back.takeWhile (· != '\n')).length = _
      omega
    have hfront : text.take place =
        (back.dropWhile (· != '\n')).reverse ++ (back.takeWhile (· != '\n')).reverse := by
      rw [← List.reverse_append, hback, List.reverse_reverse]
    rw [← Nat.min_eq_left (lineStart_le text place), ← List.take_take, hfront, hstart,
      ← List.length_reverse, List.take_left]
  rw [BeginsLine, htake]
  exact getLast?_dropWhile_newline back

/-- The line of a place in a text ends behind the place. -/
theorem lt_lineStop {text : List Char} {place : ℕ} (h : place < text.length) :
    place < lineStop text place := by
  rw [lineStop]
  split
  · omega
  · next hall =>
    rw [List.length_drop] at hall
    omega

/-- The line of a place in a text ends in the text. -/
theorem lineStop_le {text : List Char} {place : ℕ} (h : place ≤ text.length) :
    lineStop text place ≤ text.length := by
  have hbody := (List.takeWhile_sublist (· != '\n') (l := text.drop place)).length_le
  rw [List.length_drop] at hbody
  rw [lineStop]
  split
  · next hlt =>
    rw [List.length_drop] at hlt
    omega
  · omega

namespace Stretch

variable {text : List Char} {ms : List Pattern.Match} {m : Pattern.Match} {stretches : List Stretch}

/-- The stretches, from the last to the first, are those of the lines that matches touch. -/
structure Collects (text : List Char) (ms : List Pattern.Match) (stretches : List Stretch) : Prop where
  separated : stretches.Pairwise fun later earlier => earlier.stop ≤ later.start
  bounded : ∀ s ∈ stretches, s.start < s.stop ∧ s.stop ≤ text.length
  beginsLine : ∀ s ∈ stretches, BeginsLine text s.start
  covers : ∀ m ∈ ms, ∃ s ∈ stretches, s.start ≤ m.start ∧ m.stop ≤ s.stop
  reached : ∀ s ∈ stretches, ∃ m ∈ ms, s.start ≤ m.start

/-- Before any match there are no stretches. -/
theorem Collects.nil (text : List Char) : Collects text [] [] := by
  constructor <;> simp

/-- The lines of a match lie in the text and hold the match. -/
theorem ofMatch_bounds (hlt : m.start < m.stop) (hle : m.stop ≤ text.length) :
    (ofMatch text m).start ≤ m.start ∧ m.stop ≤ (ofMatch text m).stop ∧
      (ofMatch text m).stop ≤ text.length := by
  have hlast : max (m.stop - 1) m.start = m.stop - 1 := by omega
  have hbehind : m.stop - 1 < lineStop text (m.stop - 1) := lt_lineStop (by omega)
  refine ⟨lineStart_le text m.start, ?_, ?_⟩
  · rw [ofMatch, hlast]
    dsimp only
    omega
  · rw [ofMatch, hlast]
    exact lineStop_le (by omega)

/-- The matches of which some lie in each stretch may become more. -/
theorem exists_mem_concat {s : Stretch} (h : ∃ m' ∈ ms, s.start ≤ m'.start) :
    ∃ m' ∈ ms ++ [m], s.start ≤ m'.start := by
  obtain ⟨m', hm', hle⟩ := h
  exact ⟨m', List.mem_append_left _ hm', hle⟩

/-- A stretch behind all others is another stretch. -/
theorem Collects.cons (h : Collects text ms stretches) {new : Stretch}
    (hbehind : ∀ s ∈ stretches, s.stop ≤ new.start) (hline : BeginsLine text new.start)
    (hstart : new.start ≤ m.start) (hlt : m.start < m.stop) (hstop : m.stop ≤ new.stop)
    (hend : new.stop ≤ text.length) : Collects text (ms ++ [m]) (new :: stretches) where
  separated := List.pairwise_cons.mpr ⟨hbehind, h.separated⟩
  bounded := List.forall_mem_cons.mpr ⟨⟨by omega, hend⟩, h.bounded⟩
  beginsLine := List.forall_mem_cons.mpr ⟨hline, h.beginsLine⟩
  covers := by
    intro m' hm'
    rcases List.mem_append.mp hm' with hm' | hm'
    · obtain ⟨s, hs, hcovers⟩ := h.covers m' hm'
      exact ⟨s, List.mem_cons_of_mem _ hs, hcovers⟩
    · rw [List.mem_singleton.mp hm']
      exact ⟨new, List.mem_cons_self, hstart, hstop⟩
  reached := List.forall_mem_cons.mpr
    ⟨⟨m, by simp, hstart⟩, fun s hs => exists_mem_concat (h.reached s hs)⟩

/-- The last stretch may end further on. -/
theorem Collects.merge {last : Stretch} {earlier : List Stretch}
    (h : Collects text ms (last :: earlier)) {stop : ℕ} (spans : List (ℕ × ℕ))
    (hstart : last.start ≤ m.start) (hstop : m.stop ≤ stop) (hend : stop ≤ text.length) :
    Collects text (ms ++ [m]) (⟨last.start, max last.stop stop, spans⟩ :: earlier) := by
  obtain ⟨hseparated, hseparated'⟩ := List.pairwise_cons.mp h.separated
  obtain ⟨hbounded, hbounded'⟩ := List.forall_mem_cons.mp h.bounded
  obtain ⟨hline, hline'⟩ := List.forall_mem_cons.mp h.beginsLine
  obtain ⟨hreached, hreached'⟩ := List.forall_mem_cons.mp h.reached
  exact {
    separated := List.pairwise_cons.mpr ⟨hseparated, hseparated'⟩
    bounded := List.forall_mem_cons.mpr ⟨⟨by dsimp only; omega, by dsimp only; omega⟩, hbounded'⟩
    beginsLine := List.forall_mem_cons.mpr ⟨hline, hline'⟩
    covers := by
      intro m' hm'
      rcases List.mem_append.mp hm' with hm' | hm'
      · obtain ⟨s, hs, hstart', hstop'⟩ := h.covers m' hm'
        rcases List.mem_cons.mp hs with rfl | hs
        · exact ⟨_, List.mem_cons_self, hstart', by dsimp only; omega⟩
        · exact ⟨s, List.mem_cons_of_mem _ hs, hstart', hstop'⟩
      · rw [List.mem_singleton.mp hm']
        exact ⟨_, List.mem_cons_self, hstart, by dsimp only; omega⟩
    reached := List.forall_mem_cons.mpr
      ⟨exists_mem_concat hreached, fun s hs => exists_mem_concat (hreached' s hs)⟩ }

/-- Adding the lines of a match that begins behind the others collects the match. -/
theorem Collects.add (h : Collects text ms stretches) (hlt : m.start < m.stop)
    (hle : m.stop ≤ text.length) (hlast : ∀ m' ∈ ms, m'.start ≤ m.start) :
    Collects text (ms ++ [m]) (add stretches (ofMatch text m)) := by
  obtain ⟨hstart, hstop, hend⟩ := ofMatch_bounds hlt hle
  have hline : BeginsLine text (ofMatch text m).start := beginsLine_lineStart (by omega)
  cases stretches with
  | nil => exact h.cons (by simp) hline hstart hlt hstop hend
  | cons last earlier =>
    rw [Stretch.add]
    split
    · obtain ⟨m', hm', hreached⟩ := h.reached last List.mem_cons_self
      exact h.merge _ (Nat.le_trans hreached (hlast m' hm')) hstop hend
    · next hapart =>
      refine h.cons (List.forall_mem_cons.mpr ⟨by omega, fun s hs => ?_⟩) hline hstart hlt hstop hend
      have hbefore := (List.pairwise_cons.mp h.separated).1 s hs
      have hbounded := h.bounded last List.mem_cons_self
      omega

/-- What holds before any match, and still holds when the lines of one more match are added, holds
of the stretches of all matches that follow each other. -/
theorem foldl_add_induction {P : List Pattern.Match → List Stretch → Prop}
    (hadd : ∀ ms stretches m, P ms stretches → m.start < m.stop → m.stop ≤ text.length →
      (∀ m' ∈ ms, m'.start ≤ m.start) → P (ms ++ [m]) (add stretches (ofMatch text m)))
    (h : P ms stretches) {more : List Pattern.Match}
    (hmore : ∀ m ∈ more, m.start < m.stop ∧ m.stop ≤ text.length)
    (hfollow : (ms ++ more).Pairwise fun a b => a.start < b.start) :
    P (ms ++ more) ((more.map (ofMatch text)).foldl Stretch.add stretches) := by
  induction more generalizing ms stretches with
  | nil => simpa using h
  | cons m more ih =>
    obtain ⟨⟨hlt, hle⟩, hrest⟩ := List.forall_mem_cons.mp hmore
    have hlast : ∀ m' ∈ ms, m'.start ≤ m.start := fun m' hm' =>
      Nat.le_of_lt ((List.pairwise_append.mp hfollow).2.2 m' hm' m List.mem_cons_self)
    have hconcat : ms ++ m :: more = ms ++ [m] ++ more := by simp
    rw [hconcat] at hfollow ⊢
    exact ih (hadd ms stretches m h hlt hle hlast) hrest hfollow

end Stretch

section Matched

variable (pattern : Pattern) (text : List Char)

/-- The matches of a pattern that are not empty, from left to right. -/
def Pattern.findNonempty : List Pattern.Match :=
  (pattern.findAll text).filter fun m => m.start < m.stop

variable {pattern text} in
/-- A match that is not empty lies in the text. -/
theorem bounds_of_mem_findNonempty {m : Pattern.Match} (h : m ∈ pattern.findNonempty text) :
    m.start < m.stop ∧ m.stop ≤ text.length := by
  obtain ⟨hm, hlt⟩ := List.mem_filter.mp h
  exact ⟨by simpa using hlt, Pattern.stop_le_of_mem_findAll hm⟩

/-- What one more match preserves holds of the stretches of a text, from the last to the first. -/
theorem matchedStretches_induction {P : List Pattern.Match → List Stretch → Prop} (hnil : P [] [])
    (hadd : ∀ ms stretches m, P ms stretches → m.start < m.stop → m.stop ≤ text.length →
      (∀ m' ∈ ms, m'.start ≤ m.start) → P (ms ++ [m]) (Stretch.add stretches (.ofMatch text m))) :
    P (pattern.findNonempty text) (matchedStretches pattern text).reverse := by
  rw [matchedStretches, List.reverse_reverse]
  exact Stretch.foldl_add_induction hadd hnil (fun m => bounds_of_mem_findNonempty)
    ((Pattern.findAll_pairwise pattern text).filter _)

/-- The stretches of a text, from the last to the first, are those of the matches that are not
empty. -/
theorem collects_matchedStretches :
    Stretch.Collects text (pattern.findNonempty text) (matchedStretches pattern text).reverse :=
  matchedStretches_induction pattern text (.nil text) fun _ _ _ h hlt hle hlast =>
    h.add hlt hle hlast

/-- The stretches of a text follow each other without a common place. -/
theorem matchedStretches_separated :
    (matchedStretches pattern text).Pairwise fun a b => a.stop ≤ b.start := by
  have h := (collects_matchedStretches pattern text).separated
  rwa [List.pairwise_reverse] at h

variable {pattern text}

/-- The stretches of a text are not empty and lie in it. -/
theorem bounds_of_mem_matchedStretches {s : Stretch} (h : s ∈ matchedStretches pattern text) :
    s.start < s.stop ∧ s.stop ≤ text.length :=
  (collects_matchedStretches pattern text).bounded s (List.mem_reverse.mpr h)

/-- The stretches of a text begin where lines begin. -/
theorem beginsLine_of_mem_matchedStretches {s : Stretch} (h : s ∈ matchedStretches pattern text) :
    BeginsLine text s.start :=
  (collects_matchedStretches pattern text).beginsLine s (List.mem_reverse.mpr h)

/-- Every place in a match lies in one of the stretches. -/
theorem exists_mem_matchedStretches {m : Pattern.Match} (h : m ∈ pattern.findAll text) {place : ℕ}
    (hstart : m.start ≤ place) (hstop : place < m.stop) :
    ∃ s ∈ matchedStretches pattern text, s.start ≤ place ∧ place < s.stop := by
  have hlt : m.start < m.stop := Nat.lt_of_le_of_lt hstart hstop
  obtain ⟨s, hs, hle, hle'⟩ := (collects_matchedStretches pattern text).covers m
    (List.mem_filter.mpr ⟨h, by simpa using hlt⟩)
  exact ⟨s, List.mem_reverse.mp hs, by omega, by omega⟩

/-- Two of the stretches are the same, or one of them ends before the other begins. -/
theorem eq_or_apart_of_mem_matchedStretches {s s' : Stretch}
    (hs : s ∈ matchedStretches pattern text) (hs' : s' ∈ matchedStretches pattern text) :
    s = s' ∨ s.stop ≤ s'.start ∨ s'.stop ≤ s.start := by
  have hseparated := matchedStretches_separated pattern text
  exact List.Pairwise.forall_of_forall_of_flip
    (R := fun a b => a = b ∨ a.stop ≤ b.start ∨ b.stop ≤ a.start) (fun _ _ => .inl rfl)
    (hseparated.imp fun h => .inr (.inl h)) (hseparated.imp fun h => .inr (.inr h)) hs hs'

end Matched

end ImportAtlas
