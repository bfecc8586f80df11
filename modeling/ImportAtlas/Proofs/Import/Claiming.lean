import Mathlib.Order.Nat
import ImportAtlas.Import.Find
import ImportAtlas.Proofs.Ascending
import ImportAtlas.Proofs.Pattern.Scanning

/-!
# What the rules claim

Every construct that is found comes from a match of a rule, and no two of them share a place. So the
constructs of a text have distinct offsets, and ordering them by their offsets leaves no choice.
-/

namespace ImportAtlas

/-- The pattern of a rule can be matched in a window. -/
theorem isWindowed_of_mem_importRules :
    ∀ rule ∈ importRules, rule.pattern.isWindowed := by decide

/-- The pattern of a rule needs a character. -/
theorem advances_of_mem_importRules : ∀ rule ∈ importRules, rule.pattern.advances := by decide

/-- The pattern of a search needs a character. -/
theorem advances_importSearchPattern : importSearchPattern.advances := by decide

/-- A construct comes from a match of a rule. -/
def IsConstruct (text : List Char) (item : ImportMatch) : Prop :=
  ∃ rule ∈ importRules, ∃ m ∈ rule.pattern.findAll text, item = .ofMatch rule m

/-- A construct is not empty and lies in its text. -/
theorem IsConstruct.bounds {text : List Char} {item : ImportMatch} (h : IsConstruct text item) :
    item.offset < item.stop ∧ item.stop ≤ text.length := by
  obtain ⟨rule, hrule, m, hm, rfl⟩ := h
  exact ⟨Pattern.start_lt_stop_of_mem_findAll (advances_of_mem_importRules rule hrule) hm,
    Pattern.stop_le_of_mem_findAll hm⟩

/-- Two stretches that are not empty share a place if they begin together. -/
theorem overlaps_of_start_eq {start stop stop' : ℕ} (h : start < stop) (h' : start < stop') :
    overlaps start stop start stop' := by
  rw [overlaps, Bool.and_eq_true, decide_eq_true_eq, decide_eq_true_eq]
  exact ⟨h', h⟩

/-- Whether a match of a rule is hidden from it: the match of a call in a comment or in a literal. -/
def ImportRule.isHidden (rule : ImportRule) (text : List Char) (m : Pattern.Match) : Bool :=
  !rule.anchored && inCommentOrLiteral text m.start

namespace ImportMatch

section Claims

variable {text : List Char} {rule : ImportRule} {claimed : List ImportMatch} {m : Pattern.Match}

/-- A match that is hidden or overlaps what is claimed changes nothing, and any other is claimed
behind it. -/
theorem claim_cases (text : List Char) (rule : ImportRule) (claimed : List ImportMatch)
    (m : Pattern.Match) :
    claim text rule claimed m = claimed ∧
      (rule.isHidden text m ∨
        ∃ item ∈ claimed, overlaps m.start m.stop item.offset item.stop) ∨
    claim text rule claimed m = claimed ++ [ofMatch rule m] ∧ ¬ rule.isHidden text m ∧
      ∀ item ∈ claimed, ¬ overlaps m.start m.stop item.offset item.stop := by
  rw [claim]
  split
  · next hoverlaps => exact .inl ⟨rfl, .inr (List.any_eq_true.mp hoverlaps)⟩
  · next hfree =>
    split
    · next hhidden => exact .inl ⟨rfl, .inl hhidden⟩
    · next hvisible =>
      exact .inr ⟨rfl, hvisible, fun item hitem hoverlaps =>
        hfree (List.any_eq_true.mpr ⟨item, hitem, hoverlaps⟩)⟩

/-- What each claim of a match keeps, rules that claim one after the other keep. -/
theorem foldl_claimAll_induction {motive : List ImportMatch → Prop} {rules : List ImportRule}
    (start : motive claimed)
    (step : ∀ rule ∈ rules, ∀ m ∈ rule.pattern.findAll text, ∀ claimed, motive claimed →
      motive (claim text rule claimed m)) :
    motive (rules.foldl (claimAll text) claimed) := by
  refine List.foldlRecOn rules _ start fun claimed hclaimed rule hrule => ?_
  rw [claimAll]
  exact List.foldlRecOn _ _ hclaimed fun claimed hclaimed m hm => step rule hrule m hm claimed hclaimed

/-- What is claimed are constructs with distinct offsets. -/
structure Distinct (text : List Char) (claimed : List ImportMatch) : Prop where
  isConstruct : ∀ item ∈ claimed, IsConstruct text item
  offsets_ne : claimed.Pairwise fun a b => a.offset ≠ b.offset

/-- A match that is claimed begins where no claimed construct begins. -/
theorem Distinct.claim (h : Distinct text claimed) (hrule : rule ∈ importRules)
    (hm : m ∈ rule.pattern.findAll text) : Distinct text (claim text rule claimed m) := by
  obtain ⟨heq, -⟩ | ⟨heq, -, hfree⟩ := claim_cases text rule claimed m
  · rwa [heq]
  · have hnew : IsConstruct text (ofMatch rule m) := ⟨rule, hrule, m, hm, rfl⟩
    rw [heq]
    refine ⟨fun item hitem => ?_, List.pairwise_append.mpr ⟨h.offsets_ne, by simp, ?_⟩⟩
    · rcases List.mem_append.mp hitem with hitem | hitem
      · exact h.isConstruct item hitem
      · rwa [List.mem_singleton.mp hitem]
    · intro item hitem other hother hoffset
      rw [List.mem_singleton.mp hother] at hoffset
      have hstart : item.offset = m.start := hoffset
      have hbounds := (h.isConstruct item hitem).bounds.1
      refine hfree item hitem ?_
      rw [hstart] at hbounds ⊢
      exact overlaps_of_start_eq hnew.bounds.1 hbounds

/-- What a rule claims begins where no claimed construct begins. -/
theorem Distinct.claimAll (h : Distinct text claimed) (hrule : rule ∈ importRules) :
    Distinct text (claimAll text claimed rule) :=
  List.foldlRecOn _ _ h fun _ hclaimed _ hm => hclaimed.claim hrule hm

end Claims

end ImportMatch

/-- What the rules claim in a text are constructs with distinct offsets. -/
theorem distinct_claimedImports (text : List Char) :
    ImportMatch.Distinct text (claimedImports text) :=
  ImportMatch.foldl_claimAll_induction ⟨by simp, .nil⟩ fun _ hrule _ hm _ hclaimed =>
    hclaimed.claim hrule hm

/-- Ordering what is claimed changes nothing else. -/
theorem mem_findImports {text : List Char} {item : ImportMatch} :
    item ∈ findImports text ↔ item ∈ claimedImports text := List.mem_mergeSort

/-- The constructs of a text are in strict order. -/
theorem findImports_ascending (text : List Char) :
    (findImports text).Pairwise fun a b => a.offset < b.offset :=
  mergeSort_ascending ImportMatch.offset (distinct_claimedImports text).offsets_ne

/-- What is found in a text are constructs. -/
theorem isConstruct_of_mem_findImports {text : List Char} {item : ImportMatch}
    (h : item ∈ findImports text) : IsConstruct text item :=
  (distinct_claimedImports text).isConstruct item (mem_findImports.mp h)

end ImportAtlas
