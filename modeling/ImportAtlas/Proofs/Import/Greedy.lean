import Mathlib.Data.List.Pairwise
import ImportAtlas.Proofs.Import.Claiming
import ImportAtlas.Proofs.Import.Statements

/-!
# The greedy choice among matches

What is claimed stays claimed, and a match is turned down only because it is hidden or overlaps what
is claimed already. So a match is found unless it is hidden or overlaps what an earlier rule found,
and where all visible matches begin at one place, the earliest rule alone finds something.
-/

namespace ImportAtlas

open Pattern ImportRule Clean

/-- The rules before the rule of a kind have a lower rank. -/
theorem exists_split_importRules {rule : ImportRule} (hrule : rule ∈ importRules) :
    ∃ earlier later, importRules = earlier ++ rule :: later ∧
      ∀ rule' ∈ earlier, rank rule'.kind < rank rule.kind := by
  obtain ⟨earlier, later, hsplit⟩ := List.append_of_mem hrule
  refine ⟨earlier, later, hsplit, fun rule' hrule' => ?_⟩
  have hkinds : (importRules.map ImportRule.kind).Nodup := by decide
  have hrank (kind : ImportKind) :
      rank kind = (earlier.map ImportRule.kind ++ rule.kind :: later.map ImportRule.kind).idxOf kind := by
    rw [rank, hsplit, List.map_append, List.map_cons]
  have hother : rule.kind ∉ earlier.map ImportRule.kind := by
    rw [hsplit, List.map_append, List.map_cons] at hkinds
    exact fun hmem => (List.nodup_append.mp hkinds).2.2 _ hmem _ List.mem_cons_self rfl
  have hmem : rule'.kind ∈ earlier.map ImportRule.kind := List.mem_map_of_mem hrule'
  rw [hrank, hrank, List.idxOf_append_of_mem hmem, List.idxOf_append_of_notMem hother]
  exact Nat.lt_add_right _ (List.idxOf_lt_length_of_mem hmem)

namespace ImportMatch

variable {text : List Char} {rule : ImportRule} {claimed : List ImportMatch} {m : Pattern.Match}

/-- What is claimed stays claimed. -/
theorem subset_claim : claimed ⊆ claim text rule claimed m := by
  obtain ⟨heq, -⟩ | ⟨heq, -⟩ := claim_cases text rule claimed m
  · rw [heq]
    exact List.Subset.refl _
  · rw [heq]
    exact List.subset_append_left _ _

/-- What is claimed stays claimed while a rule goes through its matches. -/
theorem subset_foldl_claim (ms : List Pattern.Match) :
    claimed ⊆ ms.foldl (claim text rule) claimed :=
  List.foldlRecOn ms _ (List.Subset.refl _) fun _ h _ _ => List.Subset.trans h subset_claim

/-- What is claimed stays claimed while rules follow. -/
theorem subset_foldl_claimAll (rules : List ImportRule) :
    claimed ⊆ rules.foldl (claimAll text) claimed :=
  foldl_claimAll_induction (List.Subset.refl _) fun _ _ _ _ _ h => List.Subset.trans h subset_claim

/-- A match is claimed unless it is hidden or overlaps what is claimed. -/
theorem mem_claim_or (text : List Char) (rule : ImportRule) (claimed : List ImportMatch)
    (m : Pattern.Match) : ofMatch rule m ∈ claim text rule claimed m ∨ rule.isHidden text m ∨
      ∃ item ∈ claimed, overlaps m.start m.stop item.offset item.stop := by
  obtain ⟨-, hleft⟩ | ⟨heq, -⟩ := claim_cases text rule claimed m
  · exact .inr hleft
  · rw [heq]
    exact .inl (List.mem_append_right _ (List.mem_singleton_self _))

/-- What a claim adds is the match. -/
theorem mem_of_mem_claim {item : ImportMatch} (h : item ∈ claim text rule claimed m) :
    item ∈ claimed ∨ item = ofMatch rule m := by
  obtain ⟨heq, -⟩ | ⟨heq, -⟩ := claim_cases text rule claimed m
  · exact .inl (heq ▸ h)
  · rw [heq] at h
    exact (List.mem_append.mp h).imp_right List.mem_singleton.mp

/-- Of matches that follow each other, each is claimed unless it is hidden or overlaps what was
claimed before them. -/
theorem mem_foldl_claim_or {ms : List Pattern.Match}
    (hms : ms.Pairwise fun a b => a.stop ≤ b.start) (hm : m ∈ ms) :
    ofMatch rule m ∈ ms.foldl (claim text rule) claimed ∨ rule.isHidden text m ∨
      ∃ item ∈ claimed, overlaps m.start m.stop item.offset item.stop := by
  induction ms generalizing claimed with
  | nil => cases hm
  | cons first ms ih =>
    obtain ⟨hfirst, hms⟩ := List.pairwise_cons.mp hms
    rcases List.mem_cons.mp hm with rfl | hm
    · exact (mem_claim_or text rule claimed m).imp_left fun hmem => subset_foldl_claim ms hmem
    · refine (ih hms hm).imp_right (Or.imp_right ?_)
      rintro ⟨item, hitem, hoverlaps⟩
      rcases mem_of_mem_claim hitem with hitem | rfl
      · exact ⟨item, hitem, hoverlaps⟩
      · -- The first match ends before this one begins.
        have hafter : first.stop ≤ m.start := hfirst m hm
        rw [overlaps, Bool.and_eq_true, decide_eq_true_eq, decide_eq_true_eq] at hoverlaps
        exact absurd hoverlaps.1 (Nat.not_lt.mpr hafter)

/-- What is claimed comes from matches that are not hidden, and no two of them share a place. -/
structure Selected (text : List Char) (claimed : List ImportMatch) : Prop where
  visible : ∀ item ∈ claimed, ∃ rule ∈ importRules, ∃ m ∈ rule.pattern.findAll text,
    item = ofMatch rule m ∧ ¬ rule.isHidden text m
  apart : claimed.Pairwise fun a b => ¬ overlaps a.offset a.stop b.offset b.stop

/-- Two stretches share a place whichever is named first. -/
theorem overlaps_comm (start stop start' stop' : ℕ) :
    overlaps start stop start' stop' = overlaps start' stop' start stop := Bool.and_comm _ _

/-- Claiming a match keeps what is claimed visible and apart. -/
theorem Selected.claim (h : Selected text claimed) (hrule : rule ∈ importRules)
    (hm : m ∈ rule.pattern.findAll text) : Selected text (claim text rule claimed m) := by
  obtain ⟨heq, -⟩ | ⟨heq, hvisible, hfree⟩ := claim_cases text rule claimed m
  · rwa [heq]
  · rw [heq]
    refine ⟨fun item hitem => ?_, List.pairwise_append.mpr ⟨h.apart, by simp, ?_⟩⟩
    · rcases List.mem_append.mp hitem with hitem | hitem
      · exact h.visible item hitem
      · exact ⟨rule, hrule, m, hm, List.mem_singleton.mp hitem, hvisible⟩
    · intro item hitem other hother hoverlaps
      rw [List.mem_singleton.mp hother, overlaps_comm] at hoverlaps
      exact hfree item hitem hoverlaps

/-- What rules claim comes from one of them, if it was not claimed before. -/
theorem kind_mem_of_mem_foldl_claimAll {rules : List ImportRule} {item : ImportMatch}
    (h : item ∈ rules.foldl (claimAll text) claimed) :
    item ∈ claimed ∨ ∃ rule ∈ rules, item.kind = rule.kind := by
  refine foldl_claimAll_induction
    (motive := fun later => item ∈ later → item ∈ claimed ∨ ∃ rule ∈ rules, item.kind = rule.kind)
    Or.inl (fun rule hrule m _ _ hlater hitem => ?_) h
  rcases mem_of_mem_claim hitem with hitem | rfl
  · exact hlater hitem
  · exact .inr ⟨rule, hrule, rfl⟩

end ImportMatch

section Texts

variable {text : List Char} {rule : ImportRule} {m : Pattern.Match}

/-- What the rules claim is visible and apart. -/
theorem selected_claimedImports (text : List Char) :
    ImportMatch.Selected text (claimedImports text) :=
  ImportMatch.foldl_claimAll_induction ⟨by simp, .nil⟩ fun _ hrule _ hm _ hclaimed =>
    hclaimed.claim hrule hm

/-- What is found is visible and apart. -/
theorem selected_findImports (text : List Char) : ImportMatch.Selected text (findImports text) where
  visible _ hitem := (selected_claimedImports text).visible _ (mem_findImports.mp hitem)
  apart := (List.mergeSort_perm _ _).symm.pairwise (selected_claimedImports text).apart fun h => by
    rwa [ImportMatch.overlaps_comm]

/-- A match is found unless it is hidden or overlaps what an earlier rule found. -/
theorem mem_findImports_or (hrule : rule ∈ importRules) (hm : m ∈ rule.pattern.findAll text) :
    ImportMatch.ofMatch rule m ∈ findImports text ∨ rule.isHidden text m ∨
      ∃ item ∈ findImports text, rank item.kind < rank rule.kind ∧
        overlaps m.start m.stop item.offset item.stop := by
  obtain ⟨earlier, later, hsplit, hearlier⟩ := exists_split_importRules hrule
  have hclaimed : claimedImports text = later.foldl (ImportMatch.claimAll text)
      (ImportMatch.claimAll text (earlier.foldl (ImportMatch.claimAll text) []) rule) := by
    rw [claimedImports, hsplit, List.foldl_append, List.foldl_cons]
  have hkept : ImportMatch.claimAll text (earlier.foldl (ImportMatch.claimAll text) []) rule ⊆
      claimedImports text := hclaimed ▸ ImportMatch.subset_foldl_claimAll later
  rcases ImportMatch.mem_foldl_claim_or
    ((matchesAfter_pairwise rule.pattern [] 0 text).imp And.right) hm with
    hmem | hhidden | ⟨item, hitem, hoverlaps⟩
  · exact .inl (mem_findImports.mpr (hkept hmem))
  · exact .inr (.inl hhidden)
  · rcases ImportMatch.kind_mem_of_mem_foldl_claimAll hitem with hnone | ⟨rule', hrule', hkind⟩
    · cases hnone
    · have hfound := mem_findImports.mpr (hkept (ImportMatch.subset_foldl_claim _ hitem))
      exact .inr (.inr ⟨item, hfound, hkind ▸ hearlier rule' hrule', hoverlaps⟩)

/-- Rules of one kind are anchored alike. -/
theorem anchored_eq_of_kind_eq : ∀ rule ∈ importRules, ∀ rule' ∈ importRules,
    rule.kind = rule'.kind → rule.anchored = rule'.anchored := by decide

/-- A match that is found is not hidden. -/
theorem not_isHidden_of_mem (hrule : rule ∈ importRules)
    (h : ImportMatch.ofMatch rule m ∈ findImports text) : ¬ rule.isHidden text m := by
  obtain ⟨rule', hrule', m', -, heq, hvisible⟩ := (selected_findImports text).visible _ h
  have hkind : rule.kind = rule'.kind := congrArg ImportMatch.kind heq
  have hstart : m.start = m'.start := congrArg ImportMatch.offset heq
  rwa [ImportRule.isHidden, anchored_eq_of_kind_eq rule hrule rule' hrule' hkind, hstart]

/-- Two constructs that are found and not the same share no place. -/
theorem not_overlaps_of_mem {item other : ImportMatch} (h : item ∈ findImports text)
    (h' : other ∈ findImports text) (hne : item ≠ other) :
    ¬ overlaps item.offset item.stop other.offset other.stop := by
  have : Std.Symm fun a b : ImportMatch => ¬ overlaps a.offset a.stop b.offset b.stop :=
    ⟨fun _ _ hapart => by rwa [ImportMatch.overlaps_comm]⟩
  exact (selected_findImports text).apart.forall h h' hne

/-- Where all visible matches begin at one place, the one of the earliest rule is found and nothing
else. -/
theorem findImports_eq_singleton (hrule : rule ∈ importRules) (hm : m ∈ rule.pattern.findAll text)
    (hvisible : ¬ rule.isHidden text m)
    (hfirst : ∀ rule' ∈ importRules, ∀ m' ∈ rule'.pattern.findAll text, ¬ rule'.isHidden text m' →
      m'.start = m.start ∧ rank rule.kind ≤ rank rule'.kind) :
    findImports text = [.ofMatch rule m] := by
  have hplace : ∀ item ∈ findImports text,
      item.offset = m.start ∧ rank rule.kind ≤ rank item.kind := by
    intro item hitem
    obtain ⟨rule', hrule', m', hm', rfl, hvisible'⟩ := (selected_findImports text).visible item hitem
    exact hfirst rule' hrule' m' hm' hvisible'
  have hfound : ImportMatch.ofMatch rule m ∈ findImports text := by
    rcases mem_findImports_or hrule hm with hmem | hhides | ⟨item, hitem, hlt, -⟩
    · exact hmem
    · exact absurd hhides hvisible
    · exact absurd (hplace item hitem).2 (Nat.not_le.mpr hlt)
  refine ascending_ext ImportMatch.offset (findImports_ascending text) (List.pairwise_singleton _ _)
    fun item => ⟨fun hitem => ?_, fun hitem => List.mem_singleton.mp hitem ▸ hfound⟩
  by_contra hne
  rw [List.mem_singleton] at hne
  refine not_overlaps_of_mem hitem hfound hne ?_
  -- Both begin at the place, and neither is empty.
  rw [(hplace item hitem).1]
  have hbounds := (isConstruct_of_mem_findImports hitem).bounds.1
  rw [(hplace item hitem).1] at hbounds
  exact overlaps_of_start_eq hbounds (isConstruct_of_mem_findImports hfound).bounds.1

end Texts

end ImportAtlas
