import ImportAtlas.Proofs.Import.Claiming
import ImportAtlas.Proofs.Search.Stretches

/-!
# Extraction through windows

A search hands over windows instead of texts. A window cuts a construct in two when a match of one
rule begins in it and ends beyond it: the search pattern takes the first rule that matches at a
place, comments included, and goes on behind its match, so that it may step over the beginning of
the construct. Where no match is cut, the windows hold exactly the matches of the text, and what
is extracted from them one after the other is what is extracted from the whole text.
-/

namespace ImportAtlas

/-- In a window that begins where a line begins, a place has before it on its line what it has in
the text. -/
theorem lineBefore_window {text : List Char} {start stop position : ℕ}
    (hle : start + position ≤ stop) (hlength : stop ≤ text.length) (hline : BeginsLine text start) :
    lineBefore text (start + position) = lineBefore ((text.take stop).drop start) position := by
  obtain ⟨outside, window, after, htext, houtside, hwindow, hcut, hcut'⟩ :=
    exists_append_of_le (Nat.le_trans (Nat.le_add_right _ _) hle) hlength
  rw [← hwindow]
  rw [BeginsLine, ← houtside] at hline
  subst hcut
  rw [List.length_append] at hcut'
  have htake : text.take (outside.length + position) = outside ++ window.take position := by
    rw [htext, List.append_assoc, List.take_length_add_append,
      List.take_append_of_le_length (by omega)]
  have houtside : outside.reverse.takeWhile (· != '\n') = [] := by
    rw [← List.head?_reverse] at hline
    cases hrev : outside.reverse with
    | nil => rfl
    | cons c rest =>
      rw [hrev, List.head?_cons, Option.all_some] at hline
      rw [List.takeWhile_cons_of_neg (by simpa using hline)]
  rw [lineBefore, lineBefore, htake, List.reverse_append, List.takeWhile_append, houtside,
    List.append_nil]
  split
  · next hall => rw [(List.takeWhile_prefix _).eq_of_length hall]
  · rfl

/-- In a window that begins where a line begins, a place is commented out, or quoted, if it is so in
the text. -/
theorem inCommentOrLiteral_window {text : List Char} {start stop position : ℕ}
    (hle : start + position ≤ stop) (hlength : stop ≤ text.length) (hline : BeginsLine text start) :
    inCommentOrLiteral text (start + position) =
      inCommentOrLiteral ((text.take stop).drop start) position := by
  rw [inCommentOrLiteral, inCommentOrLiteral, lineBefore_window hle hlength hline]

namespace Stretch

/-- The part of a text that a stretch takes up. -/
def part (text : List Char) (s : Stretch) : List Char := (text.take s.stop).drop s.start

/-- Whether a place lies in a stretch. -/
def holds (s : Stretch) (place : ℕ) : Bool := s.start ≤ place ∧ place < s.stop

/-- A stretch begins where a line begins, and no match of a rule runs over one of its borders. -/
structure IsWhole (text : List Char) (s : Stretch) : Prop where
  start_le : s.start ≤ s.stop
  stop_le : s.stop ≤ text.length
  beginsLine : BeginsLine text s.start
  sealed_start : ∀ rule ∈ importRules, rule.pattern.Sealed text s.start
  sealed_stop : ∀ rule ∈ importRules, rule.pattern.Sealed text s.stop

/-- A place lies in a stretch exactly if it lies between its borders. -/
theorem holds_iff {s : Stretch} {place : ℕ} : s.holds place ↔ s.start ≤ place ∧ place < s.stop := by
  rw [holds, decide_eq_true_eq]

end Stretch

/-- Moving two stretches together does not change whether they share a place. -/
theorem overlaps_add (distance start stop start' stop' : ℕ) :
    overlaps (distance + start) (distance + stop) (distance + start') (distance + stop') =
      overlaps start stop start' stop' := by
  simp only [overlaps, Nat.add_lt_add_iff_left]

namespace ImportMatch

/-- A construct as it stands in a text that has characters before what was read. -/
def shift (distance : ℕ) (item : ImportMatch) : ImportMatch :=
  { item with offset := distance + item.offset, stop := distance + item.stop }

section Claims

variable {text : List Char} {s : Stretch} {rule : ImportRule} {m m' : Pattern.Match}
  {claimed claimed' : List ImportMatch}

/-- What shares a place with a match in a whole stretch begins in the stretch. -/
theorem holds_of_overlaps (h : s.IsWhole text) {item : ImportMatch} (hitem : IsConstruct text item)
    (hstart : s.start ≤ m.start) (hstop : m.stop ≤ s.stop)
    (hoverlaps : overlaps m.start m.stop item.offset item.stop) : s.holds item.offset := by
  rw [overlaps, Bool.and_eq_true, decide_eq_true_eq, decide_eq_true_eq] at hoverlaps
  obtain ⟨rule, hrule, m₀, hm₀, rfl⟩ := hitem
  have hsealed := h.sealed_start rule hrule m₀ hm₀
  have hoffset : (ofMatch rule m₀).offset = m₀.start := rfl
  have hend : (ofMatch rule m₀).stop = m₀.stop := rfl
  rw [Stretch.holds_iff]
  omega

/-- A match that begins outside a stretch changes nothing that is claimed in it. -/
theorem filter_claim_of_not_holds (hm : ¬ s.holds m.start) :
    (claim text rule claimed m).filter (fun item => s.holds item.offset) =
      claimed.filter fun item => s.holds item.offset := by
  obtain ⟨heq, -⟩ | ⟨heq, -⟩ := claim_cases text rule claimed m
  · rw [heq]
  · have hnew : ¬ s.holds (ofMatch rule m).offset := hm
    have hnone : [ofMatch rule m].filter (fun item => s.holds item.offset) = [] := by
      refine List.filter_eq_nil_iff.mpr fun item hitem => ?_
      rwa [List.mem_singleton.mp hitem]
    rw [heq, List.filter_append, hnone, List.append_nil]

/-- A match in a whole stretch overlaps what is claimed exactly if it does so in the part. -/
theorem any_overlaps_window (h : s.IsWhole text) (hclaimed : ∀ item ∈ claimed, IsConstruct text item)
    (heq : claimed.filter (fun item => s.holds item.offset) = claimed'.map (shift s.start))
    (hstop : s.start + m'.stop ≤ s.stop) :
    claimed.any (fun c => overlaps (s.start + m'.start) (s.start + m'.stop) c.offset c.stop) =
      claimed'.any fun c => overlaps m'.start m'.stop c.offset c.stop := by
  rw [Bool.eq_iff_iff, List.any_eq_true, List.any_eq_true]
  constructor
  · rintro ⟨item, hitem, hoverlaps⟩
    have hholds := @holds_of_overlaps text s (m'.shift s.start) h item (hclaimed item hitem)
      (Nat.le_add_right _ _) hstop hoverlaps
    have hmem : item ∈ claimed'.map (shift s.start) := heq ▸ List.mem_filter.mpr ⟨hitem, hholds⟩
    obtain ⟨item', hitem', rfl⟩ := List.mem_map.mp hmem
    exact ⟨item', hitem', by rwa [shift, overlaps_add] at hoverlaps⟩
  · rintro ⟨item', hitem', hoverlaps⟩
    have hmem : item'.shift s.start ∈ claimed.filter fun item => s.holds item.offset :=
      heq ▸ List.mem_map_of_mem hitem'
    refine ⟨_, (List.mem_filter.mp hmem).1, ?_⟩
    rwa [shift, overlaps_add]

/-- A match in a whole stretch is claimed exactly if it is claimed in the part. -/
theorem filter_claim_window (h : s.IsWhole text) (hclaimed : ∀ item ∈ claimed, IsConstruct text item)
    (heq : claimed.filter (fun item => s.holds item.offset) = claimed'.map (shift s.start))
    (hholds : s.holds (s.start + m'.start)) (hstop : s.start + m'.stop ≤ s.stop) :
    (claim text rule claimed (m'.shift s.start)).filter (fun item => s.holds item.offset) =
      (claim (s.part text) rule claimed' m').map (shift s.start) := by
  have hbounds := Stretch.holds_iff.mp hholds
  have hany := any_overlaps_window h hclaimed heq hstop
  have hhidden : inCommentOrLiteral text (s.start + m'.start) =
      inCommentOrLiteral (s.part text) m'.start :=
    inCommentOrLiteral_window (Nat.le_of_lt hbounds.2) h.stop_le h.beginsLine
  rw [claim, claim, Pattern.Match.shift]
  simp only [hany, hhidden]
  split
  · exact heq
  · split
    · exact heq
    · have hnew : s.holds (ofMatch rule (m'.shift s.start)).offset := hholds
      rw [List.filter_append, heq, List.map_append]
      refine congrArg _ (List.filter_eq_self.mpr fun item hitem => ?_)
      rwa [List.mem_singleton.mp hitem]

/-- A rule claims of its matches in a whole stretch what it claims in the part. -/
theorem filter_foldl_claim (h : s.IsWhole text) (hrule : rule ∈ importRules)
    {ms ms' : List Pattern.Match} (hms : ∀ m ∈ ms, m ∈ rule.pattern.findAll text)
    (hshift : ms.filter (fun m => s.holds m.start) = ms'.map (Pattern.Match.shift s.start))
    (hclaimed : Distinct text claimed)
    (heq : claimed.filter (fun item => s.holds item.offset) = claimed'.map (shift s.start)) :
    (ms.foldl (claim text rule) claimed).filter (fun item => s.holds item.offset) =
      (ms'.foldl (claim (s.part text) rule) claimed').map (shift s.start) := by
  induction ms generalizing ms' claimed claimed' with
  | nil =>
    rw [List.map_eq_nil_iff.mp hshift.symm]
    exact heq
  | cons m ms ih =>
    obtain ⟨hm, hrest⟩ := List.forall_mem_cons.mp hms
    have hnext := hclaimed.claim hrule hm
    by_cases hholds : s.holds m.start
    · rw [List.filter_cons_of_pos (by exact hholds)] at hshift
      obtain ⟨m', rest, rfl, rfl, hrest'⟩ := List.map_eq_cons_iff.mp hshift.symm
      have hstop : s.start + m'.stop ≤ s.stop :=
        h.sealed_stop rule hrule _ hm (Stretch.holds_iff.mp hholds).2
      rw [List.foldl_cons, List.foldl_cons]
      exact ih hrest hrest'.symm hnext
        (filter_claim_window h hclaimed.isConstruct heq hholds hstop)
    · rw [List.filter_cons_of_neg (by exact hholds)] at hshift
      exact ih hrest hshift hnext ((filter_claim_of_not_holds hholds).trans heq)

/-- Rules claim in a whole stretch what they claim in the part. -/
theorem filter_foldl_claimAll (h : s.IsWhole text) {rules : List ImportRule}
    (hrules : ∀ rule ∈ rules, rule ∈ importRules) (hclaimed : Distinct text claimed)
    (heq : claimed.filter (fun item => s.holds item.offset) = claimed'.map (shift s.start)) :
    (rules.foldl (claimAll text) claimed).filter (fun item => s.holds item.offset) =
      (rules.foldl (claimAll (s.part text)) claimed').map (shift s.start) := by
  induction rules generalizing claimed claimed' with
  | nil => exact heq
  | cons rule rules ih =>
    obtain ⟨hrule, hrest⟩ := List.forall_mem_cons.mp hrules
    have hmatches := Pattern.filter_findAll_window (isWindowed_of_mem_importRules rule hrule)
      (advances_of_mem_importRules rule hrule) h.start_le h.stop_le h.beginsLine
      (h.sealed_start rule hrule) (h.sealed_stop rule hrule)
    exact ih hrest (hclaimed.claimAll hrule)
      (filter_foldl_claim h hrule (fun m hm => hm) hmatches hclaimed heq)

end Claims

end ImportMatch

/-- What is claimed in a whole stretch of a text is what is claimed in the part. -/
theorem filter_claimedImports_window {text : List Char} {s : Stretch} (h : s.IsWhole text) :
    (claimedImports text).filter (fun item => s.holds item.offset) =
      (claimedImports (s.part text)).map (ImportMatch.shift s.start) :=
  ImportMatch.filter_foldl_claimAll h (fun _ hrule => hrule) ⟨by simp, .nil⟩ rfl

/-- The stretches of a text that a search reports. -/
def searchedStretches (text : List Char) : List Stretch := matchedStretches importSearchPattern text

/-- No match of a rule ends beyond the stretch in which it begins. -/
def HoldsMatches (text : List Char) : Prop :=
  ∀ rule ∈ importRules, ∀ m ∈ rule.pattern.findAll text, ∀ s ∈ searchedStretches text,
    s.holds m.start → m.stop ≤ s.stop

instance (text : List Char) : Decidable (HoldsMatches text) :=
  inferInstanceAs (Decidable (∀ rule ∈ importRules, ∀ m ∈ rule.pattern.findAll text,
    ∀ s ∈ searchedStretches text, s.holds m.start → m.stop ≤ s.stop))

section Searched

variable {text : List Char} {rule : ImportRule} {m : Pattern.Match}

/-- A match of a rule begins in a match of the search pattern, which matches wherever a rule does. -/
theorem exists_mem_findAll_importSearchPattern (hrule : rule ∈ importRules)
    (hm : m ∈ rule.pattern.findAll text) :
    ∃ m' ∈ importSearchPattern.findAll text, m'.start ≤ m.start ∧ m.start < m'.stop := by
  obtain ⟨left, right, rfl, hmatch⟩ := Pattern.matchAfter_of_mem_findAll hm
  -- The search need not stop here: an earlier match of its pattern may lie over the place.
  have hsearched : (importSearchPattern.matchAfter left right).isSome :=
    Pattern.matchAt_firstOf_isSome.mpr
      ⟨rule.pattern, List.mem_map_of_mem hrule, by rw [← Pattern.matchAfter, hmatch]; rfl⟩
  rw [(Pattern.matchAfter_some hmatch).1]
  exact Pattern.exists_mem_findAll advances_importSearchPattern hsearched

/-- A match of a rule begins in a stretch. -/
theorem exists_searchedStretch (hrule : rule ∈ importRules) (hm : m ∈ rule.pattern.findAll text) :
    ∃ s ∈ searchedStretches text, s.holds m.start := by
  obtain ⟨m', hm', hstart, hstop⟩ := exists_mem_findAll_importSearchPattern hrule hm
  obtain ⟨s, hs, hholds⟩ := exists_mem_matchedStretches hm' hstart hstop
  exact ⟨s, hs, Stretch.holds_iff.mpr hholds⟩

/-- If no match leaves its stretch, no match runs over a border of one. -/
theorem isWhole_of_holdsMatches (h : HoldsMatches text) {s : Stretch}
    (hs : s ∈ searchedStretches text) : s.IsWhole text := by
  have hbounds := bounds_of_mem_matchedStretches hs
  have hends {rule : ImportRule} (hrule : rule ∈ importRules) {m : Pattern.Match}
      (hm : m ∈ rule.pattern.findAll text) :
      (m.start < s.start → m.stop ≤ s.start) ∧ (m.start < s.stop → m.stop ≤ s.stop) := by
    obtain ⟨s', hs', hholds⟩ := exists_searchedStretch hrule hm
    have hstop := h rule hrule m hm s' hs' hholds
    have hstart := Stretch.holds_iff.mp hholds
    rcases eq_or_apart_of_mem_matchedStretches hs hs' with rfl | hapart | hapart
    · omega
    · omega
    · omega
  exact {
    start_le := by omega
    stop_le := hbounds.2
    beginsLine := beginsLine_of_mem_matchedStretches hs
    sealed_start := fun rule hrule m hm => (hends hrule hm).1
    sealed_stop := fun rule hrule m hm => (hends hrule hm).2 }

/-- The part of a text that a stretch takes up is as long as the stretch. -/
theorem length_part {s : Stretch} (hs : s ∈ searchedStretches text) :
    s.start + (s.part text).length = s.stop := by
  have hbounds := bounds_of_mem_matchedStretches hs
  rw [Stretch.part, List.length_drop, List.length_take]
  omega

/-- A list whose keys ascend and lie in the stretches is made up of what lies in each of them. -/
theorem eq_flatMap_filter_holds {α : Type*} (key : α → ℕ) {items : List α}
    (hascending : items.Pairwise fun a b => key a < key b)
    (hholds : ∀ x ∈ items, ∃ s ∈ searchedStretches text, s.holds (key x)) :
    items = (searchedStretches text).flatMap fun s => items.filter fun x => s.holds (key x) := by
  have hparts : ((searchedStretches text).flatMap fun s =>
      items.filter fun x => s.holds (key x)).Pairwise fun a b => key a < key b := by
    rw [List.pairwise_flatMap]
    refine ⟨fun s _ => hascending.filter _, (matchedStretches_separated _ text).imp ?_⟩
    intro s s' hapart x hx y hy
    have hx' := Stretch.holds_iff.mp (List.mem_filter.mp hx).2
    have hy' := Stretch.holds_iff.mp (List.mem_filter.mp hy).2
    omega
  refine ascending_ext key hascending hparts fun x => ?_
  rw [List.mem_flatMap]
  constructor
  · intro hx
    obtain ⟨s, hs, hxs⟩ := hholds x hx
    exact ⟨s, hs, List.mem_filter.mpr ⟨hx, hxs⟩⟩
  · rintro ⟨s, -, hx⟩
    exact (List.mem_filter.mp hx).1

/-- What is found in a whole stretch of a text is what is found in the part. -/
theorem filter_findImports_window {s : Stretch} (h : s.IsWhole text) :
    (findImports text).filter (fun item => s.holds item.offset) =
      (findImports (s.part text)).map (ImportMatch.shift s.start) := by
  have hpart : ((findImports (s.part text)).map (ImportMatch.shift s.start)).Pairwise
      fun a b => a.offset < b.offset := by
    rw [List.pairwise_map]
    exact (findImports_ascending _).imp fun hlt => Nat.add_lt_add_left hlt _
  refine ascending_ext ImportMatch.offset ((findImports_ascending text).filter _) hpart fun item => ?_
  have hmem : item ∈ (claimedImports text).filter (fun item => s.holds item.offset) ↔
      item ∈ (claimedImports (s.part text)).map (ImportMatch.shift s.start) := by
    rw [filter_claimedImports_window h]
  simpa only [List.mem_filter, List.mem_map, mem_findImports] using hmem

/-- Where no match leaves its stretch, the stretches one after the other hold the constructs of the
text. -/
theorem findImports_eq_flatMap (h : HoldsMatches text) :
    findImports text = (searchedStretches text).flatMap fun s =>
      (findImports (s.part text)).map (ImportMatch.shift s.start) := by
  have hholds : ∀ item ∈ findImports text, ∃ s ∈ searchedStretches text, s.holds item.offset := by
    intro item hitem
    obtain ⟨rule, hrule, m, hm, rfl⟩ := isConstruct_of_mem_findImports hitem
    exact exists_searchedStretch hrule hm
  calc findImports text
    _ = (searchedStretches text).flatMap fun s =>
        (findImports text).filter fun item => s.holds item.offset :=
      eq_flatMap_filter_holds ImportMatch.offset (findImports_ascending text) hholds
    _ = (searchedStretches text).flatMap fun s =>
        (findImports (s.part text)).map (ImportMatch.shift s.start) :=
      List.flatMap_congr fun s hs => filter_findImports_window (isWhole_of_holdsMatches h hs)

/-- No match leaves its stretch exactly if the stretches one after the other hold the matches of the
text. -/
theorem holdsMatches_iff :
    HoldsMatches text ↔ ∀ rule ∈ importRules, rule.pattern.findAll text =
      (searchedStretches text).flatMap fun s =>
        (rule.pattern.findAll (s.part text)).map (Pattern.Match.shift s.start) := by
  constructor
  · intro h rule hrule
    calc rule.pattern.findAll text
      _ = (searchedStretches text).flatMap fun s =>
          (rule.pattern.findAll text).filter fun m => s.holds m.start :=
        eq_flatMap_filter_holds Pattern.Match.start (Pattern.findAll_pairwise _ text) fun m hm =>
          exists_searchedStretch hrule hm
      _ = (searchedStretches text).flatMap fun s =>
          (rule.pattern.findAll (s.part text)).map (Pattern.Match.shift s.start) := by
        refine List.flatMap_congr fun s hs => ?_
        have hwhole := isWhole_of_holdsMatches h hs
        exact Pattern.filter_findAll_window (isWindowed_of_mem_importRules rule hrule)
          (advances_of_mem_importRules rule hrule) hwhole.start_le hwhole.stop_le hwhole.beginsLine
          (hwhole.sealed_start rule hrule) (hwhole.sealed_stop rule hrule)
  · intro h rule hrule m hm s hs hholds
    rw [h rule hrule, List.mem_flatMap] at hm
    obtain ⟨s', hs', hm⟩ := hm
    obtain ⟨m', hm', rfl⟩ := List.mem_map.mp hm
    have hlt := Pattern.start_lt_stop_of_mem_findAll (advances_of_mem_importRules rule hrule) hm'
    have hle := Pattern.stop_le_of_mem_findAll hm'
    have hlength := length_part hs'
    have hstart := Stretch.holds_iff.mp hholds
    simp only [Pattern.Match.shift] at hstart ⊢
    rcases eq_or_apart_of_mem_matchedStretches hs hs' with rfl | hapart | hapart
    · omega
    · omega
    · omega

end Searched

/-- The windows of a text hold the matches of each rule exactly if no match ends beyond the window in
which it begins. If so, what is extracted from the windows one after the other is what is extracted
from the text. -/
theorem extractImports_windows (path : Path) (text : List Char) :
    (HoldsMatches text ↔ ∀ rule ∈ importRules, rule.pattern.findAll text =
      (searchedStretches text).flatMap fun s =>
        (rule.pattern.findAll (s.window path text).text).map (Pattern.Match.shift s.start)) ∧
    (HoldsMatches text → ∀ external,
      (searchWindows importSearchPattern path text).flatMap (fun w =>
          (extractImports w.text external).map ImportMatch.specifier) =
        (extractImports text external).map ImportMatch.specifier) := by
  refine ⟨holdsMatches_iff, fun h external => ?_⟩
  have hpart (s : Stretch) : (extractImports (s.window path text).text external).map
      ImportMatch.specifier =
      (((findImports (s.part text)).map (ImportMatch.shift s.start)).filter fun item =>
        !item.skip && (external || isLocalSpecifier item.specifier.toList)).map
          ImportMatch.specifier := by
    rw [List.filter_map, List.map_map]
    rfl
  rw [searchWindows, List.flatMap_map, extractImports, findImports_eq_flatMap h, List.filter_flatMap,
    List.map_flatMap]
  exact List.flatMap_congr fun s _ => hpart s

/-- A construct on several lines is extracted from its window. -/
theorem extractImports_windows_several_lines :
    let text := "import \x7b\n  a,\n\x7d from './x';\nrun();\n".toList
    HoldsMatches text ∧
      (searchWindows importSearchPattern ⟨.relative, ["main.ts"]⟩ text).flatMap (fun w =>
        (extractImports w.text).map ImportMatch.specifier) = ["./x"] := by
  intro text
  have hholds : HoldsMatches text := by decide +kernel
  have hspecifiers : (extractImports text).map ImportMatch.specifier = ["./x"] := by decide +kernel
  have hwindows := (extractImports_windows ⟨.relative, ["main.ts"]⟩ text).2 hholds false
  exact ⟨hholds, hwindows.trans hspecifiers⟩

/-- Not every text has windows from which the same is extracted as from the text: a commented call
at the end of a line reaches over the beginning of the construct on the next. -/
theorem not_forall_extractImports_windows :
    ¬ ∀ (path : Path) (text : List Char),
      (searchWindows importSearchPattern path text).flatMap (fun w =>
          (extractImports w.text).map ImportMatch.specifier) =
        (extractImports text).map ImportMatch.specifier := by
  intro hclaim
  let text := "// see import(\nimport \x7b\n  a,\n\x7d from './x';\n".toList
  have hspecifiers : (extractImports text).map ImportMatch.specifier = ["./x"] := by decide +kernel
  have hwindows : (searchWindows importSearchPattern ⟨.relative, ["main.ts"]⟩ text).flatMap (fun w =>
      (extractImports w.text).map ImportMatch.specifier) = [] := by decide +kernel
  have hequal := hclaim ⟨.relative, ["main.ts"]⟩ text
  rw [hspecifiers, hwindows] at hequal
  exact absurd hequal (by decide)

end ImportAtlas
