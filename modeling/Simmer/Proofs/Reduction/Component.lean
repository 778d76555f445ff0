import Simmer.RuleSystem
import Simmer.Proofs.Reduction.Recurrence
import Simmer.Proofs.Rule.Closed

/-!
Reducing a component. Closed rules always apply, and components are one state only when they
are equal, so the bounded driver finds what plain reduction reaches within the cap, and ends
with a fault for divergence wherever there is no such end. A mixture is reduced as its
components are, and then as a whole.
-/
namespace Simmer.RuleSystem

theorem exists_applies_component (oracle : Oracle) (rule : Rule) (c : Component) :
    ∃ next, (Rewriting.ofComponents oracle).Applies rule c next :=
  rule.exists_applyComponent oracle c

theorem reduceComponent_eq_ok_iff {s : RuleSystem} {c v : Component} :
    (s.reduceComponent c).outcome = .ok v ↔
      ∃ log, (Rewriting.ofComponents s.oracle).Reduces (s.rules.filter Rule.isComponent) c log v ∧
        Rewriting.Within s.cap log :=
  Rewriting.drive_eq_ok_iff Function.injective_id

theorem reduceComponent_ok_or_diverges (s : RuleSystem) (c : Component) :
    (∃ v, (s.reduceComponent c).outcome = .ok v) ∨
      Rewriting.Diverges s.cap (s.reduceComponent c).outcome :=
  Rewriting.drive_ok_or_diverges fun rule _ => exists_applies_component s.oracle rule

/-- A component is reduced to what plain reduction reaches within the cap, and diverges
exactly when plain reduction reaches nothing within the cap. -/
theorem reduceComponent_exact (s : RuleSystem) (c : Component) :
    (∀ v, (s.reduceComponent c).outcome = .ok v ↔
      ∃ log, (Rewriting.ofComponents s.oracle).Reduces (s.rules.filter Rule.isComponent) c log v ∧
        Rewriting.Within s.cap log) ∧
    (Rewriting.Diverges s.cap (s.reduceComponent c).outcome ↔
      ¬ ∃ v log,
        (Rewriting.ofComponents s.oracle).Reduces (s.rules.filter Rule.isComponent) c log v ∧
          Rewriting.Within s.cap log) := by
  refine ⟨fun _ => reduceComponent_eq_ok_iff, ?_⟩
  constructor
  · intro hdiverges h
    obtain ⟨v, hv⟩ := h
    exact hdiverges.ne_ok (reduceComponent_eq_ok_iff.mpr hv)
  · intro hnever
    rcases reduceComponent_ok_or_diverges s c with hok | hdiverges
    · obtain ⟨v, hv⟩ := hok
      exact absurd ⟨v, reduceComponent_eq_ok_iff.mp hv⟩ hnever
    · exact hdiverges

theorem outcome_reduceMixture (s : RuleSystem) (m : Mixture) : (s.reduceMixture m).outcome =
    (m.components.mapM fun c => (s.reduceComponent c).outcome) >>= fun components =>
      ((Rewriting.ofMixtures s.oracle).drive s.cap s.rules ⟨components⟩).outcome := by
  rw [reduceMixture, Run.outcome_bind, Run.outcome_mapM]
  rfl

theorem reduceMixture_eq_ok_iff {s : RuleSystem} {m v : Mixture} :
    (s.reduceMixture m).outcome = .ok v ↔
      ∃ components, m.components.mapM (fun c => (s.reduceComponent c).outcome) = .ok components ∧
        ((Rewriting.ofMixtures s.oracle).drive s.cap s.rules ⟨components⟩).outcome = .ok v := by
  rw [outcome_reduceMixture, Outcome.bind_eq_ok_iff]

end Simmer.RuleSystem
