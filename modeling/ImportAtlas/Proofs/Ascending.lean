import Mathlib.Data.List.Nodup
import Mathlib.Order.Lattice

/-!
# Ascending lists

Sorting by a key puts a list in ascending order. A list whose keys ascend strictly is fixed by its
members. Whatever is reported in order, graphs and imports alike, is described through this: it is
enough to know what is reported.
-/

namespace ImportAtlas

variable {α κ : Type*} [LinearOrder κ]

/-- Sorting by a key puts the keys in ascending order. -/
theorem mergeSort_ordered (key : α → κ) (items : List α) :
    (items.mergeSort fun a b => key a ≤ key b).Pairwise fun a b => key a ≤ key b := by
  have htrans (a b c : α) : decide (key a ≤ key b) → decide (key b ≤ key c) →
      decide (key a ≤ key c) := by
    simp only [decide_eq_true_eq]
    exact le_trans
  have htotal (a b : α) : decide (key a ≤ key b) || decide (key b ≤ key a) := by
    rw [Bool.or_eq_true, decide_eq_true_eq, decide_eq_true_eq]
    exact le_total (key a) (key b)
  exact (List.pairwise_mergeSort htrans htotal items).imp of_decide_eq_true

/-- Distinct keys ascend strictly once they are sorted. -/
theorem mergeSort_ascending (key : α → κ) {items : List α}
    (hdistinct : items.Pairwise fun a b => key a ≠ key b) :
    (items.mergeSort fun a b => key a ≤ key b).Pairwise fun a b => key a < key b := by
  have hkept : (items.mergeSort fun a b => key a ≤ key b).Pairwise fun a b => key a ≠ key b :=
    (List.mergeSort_perm items _).symm.pairwise hdistinct fun hne => hne.symm
  exact ((mergeSort_ordered key items).and hkept).imp fun h => lt_of_le_of_ne h.1 h.2

/-- A list whose keys ascend strictly has no repetition. -/
theorem nodup_of_ascending (key : α → κ) {items : List α}
    (h : items.Pairwise fun a b => key a < key b) : items.Nodup :=
  h.imp fun hlt heq => hlt.ne (congrArg key heq)

/-- A list whose keys ascend strictly is fixed by its members. -/
theorem ascending_ext (key : α → κ) {left right : List α}
    (hleft : left.Pairwise fun a b => key a < key b)
    (hright : right.Pairwise fun a b => key a < key b) (hmem : ∀ x, x ∈ left ↔ x ∈ right) :
    left = right := by
  have hperm : left.Perm right :=
    (List.perm_ext_iff_of_nodup (nodup_of_ascending key hleft) (nodup_of_ascending key hright)).mpr
      hmem
  exact hperm.eq_of_pairwise (fun a b _ _ hab hba => absurd hab hba.not_gt) hleft hright

end ImportAtlas
