import Simmer.Mixture.Basic
import Simmer.Proofs.Sorted
import Mathlib.Data.Finset.Card
import Mathlib.Data.Finset.Image
import Mathlib.Data.List.Perm.Basic

/-!
Mixtures as multisets. Two mixtures have one key exactly when their components are the same
up to order. A change of single components that leaves the multiset as it is only permutes
the components that occur.
-/
namespace Simmer

namespace Component

theorem tokens_injective : Function.Injective tokens := by
  intro c d h
  cases c
  cases d
  exact congrArg Component.mk h

variable {f : Component → Component} {cs : List Component}

theorem image_mem_of_perm (h : (cs.map f).Perm cs) {c : Component} (hc : c ∈ cs) : f c ∈ cs :=
  h.mem_iff.mp (List.mem_map_of_mem hc)

/-- A change that leaves the multiset as it is takes different components apart. -/
theorem eq_of_image_eq (h : (cs.map f).Perm cs) {c d : Component} (hc : c ∈ cs) (hd : d ∈ cs)
    (hcd : f c = f d) : c = d := by
  have himage : cs.toFinset.image f = cs.toFinset := by
    ext e
    rw [Finset.mem_image, List.mem_toFinset, ← h.mem_iff, List.mem_map]
    simp only [List.mem_toFinset]
  have hinj : Set.InjOn f cs.toFinset := Finset.card_image_iff.mp (by rw [himage])
  exact hinj (List.mem_toFinset.mpr hc) (List.mem_toFinset.mpr hd) hcd

end Component

namespace Mixture

/-- The key is one value for all mixtures with the same components in whatever order. -/
theorem key_eq_iff_perm {a b : Mixture} : a.key = b.key ↔ a.components.Perm b.components := by
  rw [key, key, Sorted.mergeSort_eq_iff_perm, List.map_perm_map_iff Component.tokens_injective]

theorem same_iff_perm {a b : Mixture} : a.same b = true ↔ a.components.Perm b.components := by
  rw [same, beq_iff_eq, key_eq_iff_perm]

end Mixture

end Simmer
