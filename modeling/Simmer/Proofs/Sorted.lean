import Simmer.Text.Ascending
import Mathlib.Data.List.Nodup
import Mathlib.Data.List.Perm.Basic

/-!
Sorted lists as canonical forms. Where the order tells different values apart, a list and any
other order of it are sorted into one list, and so the ascending form of a list of names is one
for all lists with the same members.
-/
namespace Simmer

namespace Sorted

variable {α : Type} [Ord α] [Std.TransOrd α] {xs ys : List α}

theorem pairwise_mergeSort (xs : List α) :
    (xs.mergeSort fun a b => (compare a b).isLE).Pairwise fun a b => (compare a b).isLE = true := by
  apply List.pairwise_mergeSort
  · intro a b c hab hbc
    exact Std.TransCmp.isLE_trans hab hbc
  · intro a b
    have hswap : compare b a = (compare a b).swap := Std.OrientedCmp.eq_swap
    rw [hswap]
    cases compare a b <;> rfl

theorem mergeSort_eq_iff_perm [Std.LawfulEqOrd α] :
    (xs.mergeSort fun a b => (compare a b).isLE) = (ys.mergeSort fun a b => (compare a b).isLE) ↔
      xs.Perm ys := by
  have hxs := List.mergeSort_perm xs fun a b => (compare a b).isLE
  have hys := List.mergeSort_perm ys fun a b => (compare a b).isLE
  constructor
  · intro h
    exact hxs.symm.trans (h ▸ hys)
  · intro h
    apply List.Perm.eq_of_pairwise _ (pairwise_mergeSort xs) (pairwise_mergeSort ys)
    · exact hxs.trans (h.trans hys.symm)
    · intro a b _ _ hab hba
      exact Std.LawfulEqCmp.eq_of_compare (Std.OrientedCmp.isLE_antisymm hab hba)

end Sorted

namespace Text

theorem nodup_eraseDups (names : List String) : names.eraseDups.Nodup := by
  match names with
  | [] => exact List.nodup_nil
  | name :: names =>
    rw [List.eraseDups_cons, List.nodup_cons, List.mem_eraseDups, List.mem_filter]
    exact ⟨by simp, nodup_eraseDups _⟩
termination_by names.length
decreasing_by exact Nat.lt_succ_of_le (List.length_filter_le _ _)

/-- Two lists of names have one ascending form exactly when they are one set. -/
theorem ascending_eq_iff {names names' : List String} :
    ascending names = ascending names' ↔ ∀ name, name ∈ names ↔ name ∈ names' := by
  constructor
  · intro h name
    rw [← mem_ascending, h, mem_ascending]
  · intro h
    have hperm : names.eraseDups.Perm names'.eraseDups := by
      rw [List.perm_ext_iff_of_nodup (nodup_eraseDups names) (nodup_eraseDups names')]
      simpa only [List.mem_eraseDups] using h
    exact Sorted.mergeSort_eq_iff_perm.mpr hperm

end Text

end Simmer
