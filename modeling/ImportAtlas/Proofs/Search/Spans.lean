import ImportAtlas.Proofs.Search.Stretches
import ImportAtlas.Proofs.Text.Runs

/-!
# The windows of a text and their spans

Windows are whole lines of their text, in its order and apart from each other. A match goes to the
window of its lines, and to no other: counted from the start of the text, the spans of the windows one
after the other are the matches that are not empty, so that the windows hand out each matched part
once.
-/

namespace ImportAtlas

/-- Whether a line ends at a place of a text: with a newline, or with the text. -/
def EndsLine (text : List Char) (place : ℕ) : Prop :=
  (text.take place).getLast? = some '\n' ∨ place = text.length

/-- The part of a list between two natural numbers. -/
theorem slice_natCast {α : Type} (xs : List α) (start stop : ℕ) :
    slice xs start stop = (xs.take stop).drop start := by
  have hplace (n : ℕ) : placeIn xs.length n = min n xs.length := by
    rw [placeIn, if_neg (by omega), Int.toNat_natCast]
  rw [slice, hplace, hplace, List.take_eq_take_min, Nat.min_assoc, Nat.min_self,
    ← List.take_eq_take_min]
  rcases Nat.le_total start xs.length with hle | hle
  · rw [Nat.min_eq_left hle]
  · rw [Nat.min_eq_right hle, List.drop_eq_nil_of_le (List.length_take_le' stop xs),
      List.drop_eq_nil_of_le (Nat.le_trans (List.length_take_le' stop xs) hle)]

/-- A line ends where the line of a place ends. -/
theorem endsLine_lineStop {text : List Char} {place : ℕ} (h : place ≤ text.length) :
    EndsLine text (lineStop text place) := by
  let body := (text.drop place).takeWhile (· != '\n')
  rw [lineStop]
  split
  · next hlt =>
    left
    have hbehind : (text.drop place).dropWhile (· != '\n') ≠ [] := by
      intro hnone
      have hwhole := congrArg List.length
        (List.takeWhile_append_dropWhile (p := (· != '\n')) (l := text.drop place))
      rw [hnone, List.append_nil] at hwhole
      omega
    obtain ⟨c, after, hcut⟩ := List.exists_cons_of_ne_nil hbehind
    have hnewline : c = '\n' := by
      have hhead := List.head?_dropWhile_not (· != '\n') (text.drop place)
      rw [hcut] at hhead
      simpa using hhead
    have htext : text = text.take place ++ body ++ '\n' :: after := by
      rw [List.append_assoc, ← hnewline, ← hcut, List.takeWhile_append_dropWhile,
        List.take_append_drop]
    have hlength : (text.take place ++ body).length = place + body.length := by
      rw [List.length_append, List.length_take, Nat.min_eq_left h]
    have htake : text.take (place + body.length + 1) = text.take place ++ body ++ ['\n'] := by
      conv_lhs => rw [htext]
      rw [← hlength, List.take_length_add_append, List.take_one, List.head?_cons]
      rfl
    rw [htake, List.getLast?_concat]
  · next hall =>
    right
    have hle := (List.takeWhile_sublist (· != '\n') (l := text.drop place)).length_le
    rw [List.length_drop] at hall hle
    omega

/-- Whole lines that hold a place hold the line of the place from its start on. -/
theorem le_lineStart {text : List Char} {start place : ℕ} (hline : BeginsLine text start)
    (hle : start ≤ place) (hplace : place ≤ text.length) : start ≤ lineStart text place := by
  have hbefore : Text.Stops (· != '\n') (text.take start).reverse := by
    intro c hc
    rw [List.head?_reverse] at hc
    rw [BeginsLine, Option.mem_def.mp hc] at hline
    simpa using hline
  have hcut : (text.take place).reverse =
      ((text.take place).drop start).reverse ++ (text.take start).reverse := by
    rw [← List.reverse_append, ← Nat.min_eq_left hle, ← List.take_take, Nat.min_eq_left hle,
      List.take_append_drop]
  have hrun := Text.length_takeWhile_append_le hbefore ((text.take place).drop start).reverse
  rw [← hcut, List.length_reverse, List.length_drop, List.length_take] at hrun
  rw [lineStart]
  omega

/-- Whole lines that hold a place hold the line of the place up to its end. -/
theorem lineStop_le_of_endsLine {text : List Char} {place stop : ℕ} (hline : EndsLine text stop)
    (hlt : place < stop) (hstop : stop ≤ text.length) : lineStop text place ≤ stop := by
  rcases hline with hnewline | rfl
  · obtain ⟨front, hfront⟩ := List.getLast?_eq_some_iff.mp hnewline
    have hlength := congrArg List.length hfront
    rw [List.length_take, Nat.min_eq_left hstop, List.length_append, List.length_singleton] at hlength
    have hrest : text.drop place = front.drop place ++ '\n' :: text.drop stop := by
      rw [← List.singleton_append, ← List.append_assoc, ← List.drop_append_of_le_length (by omega),
        ← hfront, ← List.drop_append_of_le_length (by rw [List.length_take]; omega),
        List.take_append_drop]
    have hstops : Text.Stops (· != '\n') ('\n' :: text.drop stop) := by simp
    have hrun := Text.length_takeWhile_append_le hstops (front.drop place)
    rw [← hrest, List.length_drop] at hrun
    rw [lineStop]
    split <;> omega
  · exact lineStop_le (Nat.le_of_lt hlt)

namespace Stretch

variable {text : List Char} {ms : List Pattern.Match} {m : Pattern.Match} {stretches : List Stretch}

/-- A stretch ends where a line ends and has spans, all of them in it. -/
structure Encloses (text : List Char) (s : Stretch) : Prop where
  endsLine : EndsLine text s.stop
  spans_ne_nil : s.spans ≠ []
  within : ∀ span ∈ s.spans, s.start ≤ span.1 ∧ span.1 < span.2 ∧ span.2 ≤ s.stop

/-- The lines of a match enclose it. -/
theorem Encloses.ofMatch (hlt : m.start < m.stop) (hle : m.stop ≤ text.length) :
    (ofMatch text m).Encloses text := by
  obtain ⟨hstart, hstop, -⟩ := ofMatch_bounds hlt hle
  refine ⟨endsLine_lineStop (by omega), List.cons_ne_nil _ _, fun span hspan => ?_⟩
  rw [List.mem_singleton.mp hspan]
  exact ⟨hstart, hlt, hstop⟩

/-- A stretch that is merged with one whose spans begin behind its start encloses the spans of both. -/
theorem Encloses.merge {last s : Stretch} (h : last.Encloses text) (hs : s.Encloses text)
    (hbehind : ∀ span ∈ s.spans, last.start ≤ span.1) :
    Encloses text ⟨last.start, max last.stop s.stop, last.spans ++ s.spans⟩ where
  endsLine := by
    rcases Nat.le_total last.stop s.stop with hle | hle
    · rw [Nat.max_eq_right hle]
      exact hs.endsLine
    · rw [Nat.max_eq_left hle]
      exact h.endsLine
  spans_ne_nil := List.append_ne_nil_of_left_ne_nil h.spans_ne_nil _
  within := by
    intro span hspan
    rcases List.mem_append.mp hspan with hspan | hspan
    · have hwithin := h.within span hspan
      dsimp only
      omega
    · have hwithin := hs.within span hspan
      have hle := hbehind span hspan
      dsimp only
      omega

/-- The spans of stretches, from the last to the first, are the places of matches. -/
structure Holds (text : List Char) (ms : List Pattern.Match) (stretches : List Stretch) : Prop where
  encloses : ∀ s ∈ stretches, s.Encloses text
  spans_eq : stretches.reverse.flatMap Stretch.spans = ms.map fun m => (m.start, m.stop)

/-- Adding a stretch adds its spans behind the others. -/
theorem spans_add (stretches : List Stretch) (s : Stretch) :
    (add stretches s).reverse.flatMap Stretch.spans =
      stretches.reverse.flatMap Stretch.spans ++ s.spans := by
  cases stretches with
  | nil => simp [add]
  | cons last earlier =>
    rw [add]
    split <;> simp

/-- Adding the lines of a match that begins behind the others adds the place of the match. -/
theorem Holds.add (h : Holds text ms stretches) (hlt : m.start < m.stop)
    (hle : m.stop ≤ text.length) (hlast : ∀ m' ∈ ms, m'.start ≤ m.start) :
    Holds text (ms ++ [m]) (add stretches (ofMatch text m)) where
  encloses := by
    have hnew : (ofMatch text m).Encloses text := .ofMatch hlt hle
    cases stretches with
    | nil => simpa [Stretch.add] using hnew
    | cons last earlier =>
      obtain ⟨hencloses, hearlier⟩ := List.forall_mem_cons.mp h.encloses
      rw [Stretch.add]
      split
      · refine List.forall_mem_cons.mpr ⟨hencloses.merge hnew fun span hspan => ?_, hearlier⟩
        -- A span of the last stretch is an earlier match, and begins before the new one.
        obtain ⟨span', hspan'⟩ := List.exists_mem_of_ne_nil _ hencloses.spans_ne_nil
        have hmem : span' ∈ ms.map fun m => (m.start, m.stop) := by
          rw [← h.spans_eq]
          exact List.mem_flatMap.mpr ⟨last, by simp, hspan'⟩
        obtain ⟨m', hm', rfl⟩ := List.mem_map.mp hmem
        rw [List.mem_singleton.mp hspan]
        exact Nat.le_trans (hencloses.within _ hspan').1 (hlast m' hm')
      · exact List.forall_mem_cons.mpr ⟨hnew, h.encloses⟩
  spans_eq := by
    rw [spans_add, h.spans_eq, List.map_append]
    rfl

end Stretch

/-- A window is made of whole lines of a text, from a place on, and has spans, all of them in it. -/
structure Window.IsAt (path : Path) (text : List Char) (start : ℕ) (w : Window) : Prop where
  path_eq : w.path = path
  unit_eq : w.unit = .characters
  stop_le : start + w.text.length ≤ text.length
  text_eq : w.text = (text.take (start + w.text.length)).drop start
  beginsLine : BeginsLine text start
  endsLine : EndsLine text (start + w.text.length)
  line_eq : w.line = 1 + (text.take start).count '\n'
  spans_ne_nil : w.spans ≠ []
  within : ∀ span ∈ w.spans, 0 ≤ span.1 ∧ span.1 < span.2 ∧ span.2 ≤ w.text.length

section Matched

variable (pattern : Pattern) (text : List Char)

/-- The spans of the stretches of a text are the places of its matches that are not empty. -/
theorem holds_matchedStretches :
    Stretch.Holds text (pattern.findNonempty text) (matchedStretches pattern text).reverse :=
  matchedStretches_induction pattern text ⟨by simp, rfl⟩ fun _ _ _ h hlt hle hlast =>
    h.add hlt hle hlast

/-- What is told of each span of the stretches is told of each match that is not empty. -/
theorem flatMap_map_spans {α : Type} (f : ℕ × ℕ → α) :
    ((matchedStretches pattern text).flatMap fun s => s.spans.map f) =
      (pattern.findNonempty text).map fun m => f (m.start, m.stop) := by
  have hspans := (holds_matchedStretches pattern text).spans_eq
  rw [List.reverse_reverse] at hspans
  calc ((matchedStretches pattern text).flatMap fun s => s.spans.map f)
    _ = ((matchedStretches pattern text).flatMap Stretch.spans).map f := List.map_flatMap.symm
    _ = (pattern.findNonempty text).map fun m => f (m.start, m.stop) := by
      rw [hspans, List.map_map]
      rfl

variable {pattern text}

/-- The stretches of a text enclose their spans. -/
theorem encloses_of_mem_matchedStretches {s : Stretch} (h : s ∈ matchedStretches pattern text) :
    s.Encloses text :=
  (holds_matchedStretches pattern text).encloses s (List.mem_reverse.mpr h)

/-- A match that is not empty is a span of one of the stretches. -/
theorem exists_span_of_mem_findNonempty {m : Pattern.Match} (h : m ∈ pattern.findNonempty text) :
    ∃ s ∈ matchedStretches pattern text, (m.start, m.stop) ∈ s.spans := by
  have hmem : (m.start, m.stop) ∈ (pattern.findNonempty text).map fun m => (m.start, m.stop) :=
    List.mem_map_of_mem h
  rw [← flatMap_map_spans pattern text fun span => span] at hmem
  simpa using hmem

/-- The window of a stretch ends where the stretch ends. -/
theorem length_text_window {s : Stretch} (h : s ∈ matchedStretches pattern text) (path : Path) :
    s.start + (s.window path text).text.length = s.stop := by
  have hbounds := bounds_of_mem_matchedStretches h
  rw [Stretch.window, List.length_drop, List.length_take]
  omega

/-- The window of a stretch of a text is made of whole lines of the text. -/
theorem isAt_window {s : Stretch} (h : s ∈ matchedStretches pattern text) (path : Path) :
    (s.window path text).IsAt path text s.start := by
  have hencloses := encloses_of_mem_matchedStretches h
  have hlength := length_text_window h path
  constructor
  · rfl
  · rfl
  · rw [hlength]
    exact (bounds_of_mem_matchedStretches h).2
  · rw [hlength]
    rfl
  · exact beginsLine_of_mem_matchedStretches h
  · rw [hlength]
    exact hencloses.endsLine
  · rw [Stretch.window, Int.add_comm]
  · rw [Stretch.window, ne_eq, List.map_eq_nil_iff]
    exact hencloses.spans_ne_nil
  · intro span hspan
    obtain ⟨⟨start, stop⟩, hmem, rfl⟩ := List.mem_map.mp hspan
    obtain ⟨hstart, hlt, hstop⟩ := hencloses.within _ hmem
    dsimp only at hstart hlt hstop ⊢
    omega

/-- The matched texts of a window are the parts of the text at its spans. -/
theorem matchedTexts_window {s : Stretch} (h : s ∈ matchedStretches pattern text) (path : Path) :
    (s.window path text).matchedTexts =
      s.spans.map fun span => (text.take span.2).drop span.1 := by
  have hwithin := (encloses_of_mem_matchedStretches h).within
  rw [Window.matchedTexts, Stretch.window]
  dsimp only
  rw [List.map_map]
  refine List.map_congr_left fun span hspan => ?_
  obtain ⟨hstart, hlt, hstop⟩ := hwithin span hspan
  dsimp only [Function.comp_apply]
  rw [← Int.ofNat_sub hstart, ← Int.ofNat_sub (by omega), slice_natCast,
    List.take_drop, List.take_take, List.drop_drop]
  congr 1
  · omega
  · congr 1
    omega

end Matched

/-- The windows of a text are whole lines of it, in its order and apart from each other. Counted from
the start of the text, their spans one after the other are the matches that are not empty; so the
matched texts are the matched parts of the text, each of them once and in order. -/
theorem searchWindows_placed (pattern : Pattern) (path : Path) (text : List Char) :
    ∃ placed : List (ℕ × Window),
      placed.map Prod.snd = searchWindows pattern path text ∧
      (∀ p ∈ placed, p.2.IsAt path text p.1) ∧
      placed.Pairwise (fun p p' => p.1 + p.2.text.length ≤ p'.1) ∧
      (placed.flatMap fun p => p.2.spans.map fun span =>
        ((p.1 : Int) + span.1, (p.1 : Int) + span.2)) =
        (pattern.findNonempty text).map (fun m => ((m.start : Int), (m.stop : Int))) ∧
      (searchWindows pattern path text).flatMap Window.matchedTexts =
        (pattern.findNonempty text).map fun m => (text.take m.stop).drop m.start := by
  refine ⟨(matchedStretches pattern text).map fun s => (s.start, s.window path text),
    ?_, ?_, ?_, ?_, ?_⟩
  · rw [List.map_map]
    rfl
  · intro p hp
    obtain ⟨s, hs, rfl⟩ := List.mem_map.mp hp
    exact isAt_window hs path
  · rw [List.pairwise_map]
    refine (matchedStretches_separated pattern text).imp_of_mem fun hs _ hapart => ?_
    dsimp only
    rw [length_text_window hs]
    exact hapart
  · have hplaced (s : Stretch) : ((s.window path text).spans.map fun span =>
        ((s.start : Int) + span.1, (s.start : Int) + span.2)) =
          s.spans.map fun span => ((span.1 : Int), (span.2 : Int)) := by
      rw [Stretch.window, List.map_map]
      refine List.map_congr_left fun span _ => ?_
      dsimp only [Function.comp_apply]
      rw [Int.add_comm, Int.sub_add_cancel, Int.add_comm, Int.sub_add_cancel]
    rw [List.flatMap_map]
    exact (List.flatMap_congr fun s _ => hplaced s).trans (flatMap_map_spans pattern text _)
  · rw [searchWindows, List.flatMap_map]
    exact (List.flatMap_congr fun s hs => matchedTexts_window hs path).trans
      (flatMap_map_spans pattern text _)

end ImportAtlas
