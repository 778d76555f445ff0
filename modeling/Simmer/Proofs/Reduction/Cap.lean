import Simmer.Proofs.Reduction.Componentwise
import Simmer.Proofs.Reduction.Memory

/-!
Reductions under different caps. Which states a reduction goes through, and where it ends, does
not depend on the cap; the cap says only how far it may go. So a larger cap lets through every
reduction that a smaller one lets through, with the same end, and perhaps some more.
-/
namespace Simmer

theorem Rewriting.Within.mono {limit limit' : Nat} {log : List (List Nat)}
    (h : Within limit log) (hlimit : limit ≤ limit') : Within limit' log := by
  have hmax : max limit 1 ≤ max limit' 1 := by omega
  refine ⟨h.passes_le.trans hmax, fun counts hcounts n hn => ?_⟩
  exact (h.changes_lt counts hcounts n hn).trans_le hmax

namespace RuleSystem

/-- The same rules and the same oracle under another cap. -/
def withCap (s : RuleSystem) (cap : Nat) : RuleSystem :=
  { s with cap := cap }

variable {s : RuleSystem} {cap cap' : Nat}

theorem reduceComponent_of_cap_le (hcap : cap ≤ cap') {c v : Component}
    (h : ((s.withCap cap).reduceComponent c).outcome = .ok v) :
    ((s.withCap cap').reduceComponent c).outcome = .ok v := by
  obtain ⟨log, hlog, hwithin⟩ := reduceComponent_eq_ok_iff.mp h
  exact reduceComponent_eq_ok_iff.mpr ⟨log, hlog, hwithin.mono hcap⟩

theorem EndsWithoutMemory.of_cap_le (hcap : cap ≤ cap') {m start v : Mixture}
    {stages : List (Rewriting.Stage Mixture)}
    (h : (s.withCap cap).EndsWithoutMemory m start stages v) :
    (s.withCap cap').EndsWithoutMemory m start stages v where
  alone := h.alone.imp fun _ _ hlog => hlog.imp fun _ hreduces =>
    ⟨hreduces.1, hreduces.2.mono hcap⟩
  together := h.together
  within := h.within.mono hcap

theorem reduceMixture_of_cap_le (hcap : cap ≤ cap') {m v : Mixture}
    (h : ((s.withCap cap).reduceMixture m).outcome = .ok v) :
    ((s.withCap cap').reduceMixture m).outcome = .ok v := by
  obtain ⟨start, stages, hends, hnever⟩ := reduceMixture_eq_ok_iff_neverReturns.mp h
  exact reduceMixture_eq_ok_iff_neverReturns.mpr ⟨start, stages, hends.of_cap_le hcap, hnever⟩

/-- What is reduced under a cap is reduced to the same under every larger one, and what fails
under a cap fails under every smaller one. -/
theorem results_kept_under_larger_cap (s : RuleSystem) {cap cap' : Nat} (hcap : cap ≤ cap') :
    (∀ m v, ((s.withCap cap).reduceMixture m).outcome = .ok v →
      ((s.withCap cap').reduceMixture m).outcome = .ok v) ∧
    (∀ c v, ((s.withCap cap).reduceComponent c).outcome = .ok v →
      ((s.withCap cap').reduceComponent c).outcome = .ok v) ∧
    (∀ m fault, ((s.withCap cap').reduceMixture m).outcome = .error fault →
      ∃ fault', ((s.withCap cap).reduceMixture m).outcome = .error fault') ∧
    (∀ c fault, ((s.withCap cap').reduceComponent c).outcome = .error fault →
      ∃ fault', ((s.withCap cap).reduceComponent c).outcome = .error fault') := by
  have hmixtures : ∀ m v, ((s.withCap cap).reduceMixture m).outcome = .ok v →
      ((s.withCap cap').reduceMixture m).outcome = .ok v := fun _ _ =>
    reduceMixture_of_cap_le hcap
  have hcomponents : ∀ c v, ((s.withCap cap).reduceComponent c).outcome = .ok v →
      ((s.withCap cap').reduceComponent c).outcome = .ok v := fun _ _ =>
    reduceComponent_of_cap_le hcap
  refine ⟨hmixtures, hcomponents, fun m fault => ?_, fun c fault => ?_⟩
  · exact Outcome.exists_error_of_error (hmixtures m)
  · exact Outcome.exists_error_of_error (hcomponents c)

/-- The onion is seasoned under a cap of two, and so it is under a hundred. The twin fails under
a thousand, and so it does under two. -/
theorem results_kept_under_larger_cap_spice :
    ((spice 2).reduceMixture ⟨[⟨["Water"]⟩, ⟨["salty", "hot", "salty", "Onion"]⟩]⟩).outcome =
        .ok ⟨[⟨["Water"]⟩, ⟨["hot", "salty", "Onion"]⟩]⟩ ∧
      2 ≤ 100 ∧
      ((spice 100).reduceMixture ⟨[⟨["Water"]⟩, ⟨["salty", "hot", "salty", "Onion"]⟩]⟩).outcome =
        .ok ⟨[⟨["Water"]⟩, ⟨["hot", "salty", "Onion"]⟩]⟩ ∧
      2 ≤ defaultCap ∧
      ∃ fault, ((twisting.withCap 2).reduceComponent ⟨["hot", "cold", "Onion"]⟩).outcome =
        .error fault := by
  have hspice : ∀ rule ∈ (spice 2).rules, rule.isComponent = true := by
    simp [spice, Rule.isComponent]
  have hsalty : ((spice 2).reduceComponent ⟨["salty", "hot", "salty", "Onion"]⟩).outcome =
      .ok ⟨["hot", "salty", "Onion"]⟩ := reduceComponent_salty
  have hsmall : ((spice 2).reduceMixture
      ⟨[⟨["Water"]⟩, ⟨["salty", "hot", "salty", "Onion"]⟩]⟩).outcome =
        .ok ⟨[⟨["Water"]⟩, ⟨["hot", "salty", "Onion"]⟩]⟩ :=
    (reduceMixture_eq_ok_iff_forall₂ hspice).mpr
      (.cons (reduceComponent_of_image rfl) (.cons hsalty .nil))
  obtain ⟨rule, state, hfault⟩ := diverges_reduceComponent_twin
  refine ⟨hsmall, by decide, ?_, by decide, ?_⟩
  · have hkept := (results_kept_under_larger_cap (spice 2) (show 2 ≤ 100 by decide)).1
    exact hkept _ _ hsmall
  · have hfails := (results_kept_under_larger_cap twisting (show 2 ≤ defaultCap by decide)).2.2.2
    exact hfails _ _ hfault

end RuleSystem

end Simmer
