import Simmer.Proofs.Reduction.Idempotence

/-!
The faults of a running system. A rule that was accepted binds with every match what its right
side mentions, so no application of it has a fault. What remains is the fault of a reduction that
does not end within the cap, and it names the cap.
-/
namespace Simmer.RuleSystem

/-- A run that ends well or diverges has no other fault than divergence. -/
theorem eq_diverging_of_fault {α : Type} {limit : Nat} {outcome : Except Fault α}
    (h : (∃ v, outcome = .ok v) ∨ Rewriting.Diverges limit outcome) {fault : Fault}
    (hfault : outcome = .error fault) : ∃ rule state, fault = .diverging rule state limit := by
  rcases h with ⟨v, hv⟩ | ⟨rule, state, hdiverges⟩
  · rw [hfault] at hv
    cases hv
  · exact ⟨rule, state, Except.error.inj (hfault.symm.trans hdiverges)⟩

/-- Rules that were accepted apply without a fault, since their matches cover all variables of
their right sides; and a reduction has no fault but that of going beyond the cap. -/
theorem accepted_rules_have_no_fault :
    (∀ lhs rhs r, ComponentRule.of? lhs rhs = .ok r → ∀ oracle c,
      (∃ out, (r.tryApply oracle c).outcome = .ok out) ∧
        (∃ out, (r.apply oracle c).outcome = .ok out) ∧
        ∀ bound, lhs.match? oracle c = some bound →
          ∀ t ∈ rhs.tokens, t.isVariable = true → bound.Covers t) ∧
    (∀ reactants products r, MixtureRule.of? reactants products = .ok r → ∀ oracle m,
      (∃ out, (r.tryApply oracle m).outcome = .ok out) ∧
        (∃ out, (r.apply oracle m).outcome = .ok out) ∧
        ∀ found, reactants.match? oracle m = some found →
          ∀ product ∈ products, ∀ t ∈ product.tokens, t.isVariable = true →
            found.bound.Covers t) ∧
    (∀ (s : RuleSystem) c fault, (s.reduceComponent c).outcome = .error fault →
      ∃ rule state, fault = .diverging rule state s.cap) ∧
    (∀ (s : RuleSystem) m fault, (s.reduceMixture m).outcome = .error fault →
      ∃ rule state, fault = .diverging rule state s.cap) := by
  refine ⟨?_, ?_, ?_, ?_⟩
  · intro lhs rhs r hr oracle c
    obtain ⟨rfl, rfl⟩ := ComponentRule.of?_eq_ok_iff.mp hr
    exact ⟨r.exists_tryApply oracle c, r.exists_apply oracle c,
      fun bound hmatch t ht hvar => r.covers hmatch ht hvar⟩
  · intro reactants products r hr oracle m
    obtain ⟨rfl, rfl⟩ := MixtureRule.of?_eq_ok_iff.mp hr
    exact ⟨r.exists_tryApply oracle m, r.exists_apply oracle m,
      fun found hmatch product hproduct t ht hvar => r.covers hmatch hproduct ht hvar⟩
  · intro s c fault hfault
    exact eq_diverging_of_fault (reduceComponent_ok_or_diverges s c) hfault
  · intro s m fault hfault
    exact eq_diverging_of_fault (reduceMixture_ok_or_diverges s m) hfault

/-- A lone twin runs in a circle. -/
theorem diverges_reduceComponent_twin :
    Rewriting.Diverges twisting.cap
      (twisting.reduceComponent ⟨["hot", "cold", "Onion"]⟩).outcome := by
  rcases reduceComponent_ok_or_diverges twisting ⟨["hot", "cold", "Onion"]⟩ with ⟨d, hd⟩ | h
  · have himage := image_eq_of_reduceComponent (r := twist) settles_twins (by simp [twins]) hd
      (by simp [twisting])
    have hmoved : twist.image twisting.oracle ⟨["hot", "cold", "Onion"]⟩ =
        ⟨["cold", "hot", "Onion"]⟩ := rfl
    rw [hmoved] at himage
    exact absurd himage (by decide)
  · exact h

/-- The twisting rule covers its variables on one twin, as the pouring rule does on water, and the
twins have no fault but that of going beyond the cap. -/
theorem accepted_rules_have_no_fault_twisting :
    (∃ bound, twist.lhs.match? twisting.oracle ⟨["hot", "cold", "Onion"]⟩ = some bound ∧
      bound.Covers (.var .modifier "2" none)) ∧
    (∃ out, (pour.tryApply twisting.oracle water).outcome = .ok out) ∧
    (∃ rule state, (twisting.reduceComponent ⟨["hot", "cold", "Onion"]⟩).outcome =
      .error (.diverging rule state defaultCap)) ∧
    (∃ rule state, (twisting.reduceMixture twins).outcome =
      .error (.diverging rule state defaultCap)) := by
  obtain ⟨hcomponent, hmixture, halone, htogether⟩ := accepted_rules_have_no_fault
  refine ⟨?_, ?_, ?_, ?_⟩
  · have hmatch : ∃ bound, twist.lhs.match? twisting.oracle ⟨["hot", "cold", "Onion"]⟩ =
        some bound := ⟨_, rfl⟩
    obtain ⟨bound, hbound⟩ := hmatch
    have haccepted : ComponentRule.of? twist.lhs twist.rhs = .ok twist :=
      ComponentRule.of?_eq_ok_iff.mpr ⟨rfl, rfl⟩
    have hcovers := (hcomponent twist.lhs twist.rhs twist haccepted twisting.oracle
      ⟨["hot", "cold", "Onion"]⟩).2.2 bound hbound
    exact ⟨bound, hbound, hcovers _ (by decide) rfl⟩
  · exact (hmixture pour.reactants pour.products pour (MixtureRule.of?_eq_ok_iff.mpr ⟨rfl, rfl⟩)
      twisting.oracle water).1
  · obtain ⟨rule, state, hfault⟩ := diverges_reduceComponent_twin
    obtain ⟨rule', state', heq⟩ := halone twisting _ _ hfault
    exact ⟨rule', state', hfault.trans (congrArg Except.error heq)⟩
  · obtain ⟨rule, state, hfault⟩ := reduceMixture_of_moved settles_twins not_still_twins
    obtain ⟨rule', state', heq⟩ := htogether twisting _ _ hfault
    exact ⟨rule', state', hfault.trans (congrArg Except.error heq)⟩

end Simmer.RuleSystem
