import Simmer.Proofs.Reduction.Componentwise
import Simmer.Proofs.Reduction.Invariant
import Simmer.Proofs.Rule.Emptying

/-!
Components that are reduced to nothing. While every rule of a system spares the components, a
reduction never loses one; a rule whose template has collectors only may empty the component that
it matches, and then the emptied component is part of the result.
-/
namespace Simmer.RuleSystem

variable {s : RuleSystem}

theorem keeps_tokens (h : ∀ rule ∈ s.rules, rule.Spares s.oracle) :
    (Rewriting.ofComponents s.oracle).Keeps s.rules fun c => c.tokens ≠ [] := by
  intro rule hrule c out hc happly
  cases rule with
  | component r => exact fun hnil => h _ hrule c hc ((r.tokens_eq_nil_iff hc happly).mp hnil)
  | mixture r => exact Except.ok.inj happly ▸ hc

theorem keeps_solid (h : ∀ rule ∈ s.rules, rule.Spares s.oracle) :
    (Rewriting.ofMixtures s.oracle).Keeps s.rules Mixture.Solid := by
  intro rule hrule m out hm happly
  cases rule with
  | component r =>
    obtain rfl :=
      Except.ok.inj ((Rule.outcome_applyMixture_component s.oracle r m).symm.trans happly)
    intro d hd
    obtain ⟨c, hc, rfl⟩ := List.mem_map.mp hd
    exact keeps_tokens h _ hrule c _ (hm c hc) (r.outcome_eq_image s.oracle c)
  | mixture r =>
    by_contra hout
    exact h _ hrule m hm ((r.not_solid_iff hm happly).mp hout)

/-- A component or a mixture of components with tokens loses all tokens of a component in one way
only: some template has collectors alone, and what the match leaves over is let through by none
of them. Without such a match, a reduction leaves no component empty. -/
theorem emptied_only_by_collectors (s : RuleSystem) :
    (∀ text r, ComponentRule.parse text = .ok r → ∀ c, c.tokens ≠ [] →
      ∃ out, (r.apply s.oracle c).outcome = .ok out ∧
        (out.tokens = [] ↔ ¬ r.lhs.Vetoed s.oracle c ∧
          ∃ ps, Selection.Least (r.lhs.clause.Places s.oracle c) ps ∧
            ∀ token ∈ r.rhs.tokens, token.isCollector = true ∧
              ∃ collector ∈ r.lhs.clause.collectors, collector.name = token.name ∧
                ∀ name ∈ c.without ps, Slot.allows s.oracle collector.qualifier name = false)) ∧
    (∀ (r : MixtureRule) m, m.Solid →
      ∃ out, (r.apply s.oracle m).outcome = .ok out ∧
        ((∃ c ∈ out.components, c.tokens = []) ↔
          ∃ found, r.reactants.match? s.oracle m = some found ∧
            ∃ product ∈ r.products, ∀ token ∈ product.tokens, token.isCollector = true ∧
              found.bound.collected? token.name = some [])) ∧
    ((∀ rule ∈ s.rules, rule.Spares s.oracle) → ∀ m v, m.Solid →
      (s.reduceMixture m).outcome = .ok v → v.Solid) ∧
    (∀ rule : Rule, (∀ t ∈ rule.templates, ∃ token ∈ t.tokens, token.isCollector = false) →
      rule.Spares s.oracle) := by
  refine ⟨?_, ?_, ?_, fun rule h => Rule.spares_of_templates s.oracle h⟩
  · intro text r hr c hc
    obtain ⟨out, hout⟩ := r.exists_apply s.oracle c
    exact ⟨out, hout, (r.tokens_eq_nil_iff hc hout).trans (ComponentRule.empties_iff hr)⟩
  · intro r m hm
    obtain ⟨out, hout⟩ := r.exists_apply s.oracle m
    exact ⟨out, hout, r.exists_tokens_eq_nil_iff hm hout⟩
  · intro hspares m v hm h
    exact reduceMixture_keeps (keeps_tokens hspares) (keeps_solid hspares) hm h

/-- Takes the onion away. -/
def sweep : ComponentRule where
  lhs := .plain ⟨[⟨"1", none⟩], .loose, [.constant "Onion"]⟩
  rhs := ⟨[.var .collector "1" none]⟩
  closed := by decide

def sweeping : RuleSystem :=
  ⟨[.component sweep], .plain ["Onion"], defaultCap⟩

theorem parse_sweep : ComponentRule.parse "o1 Onion -> o1" = .ok sweep := rfl

theorem outcome_apply_sweep : (sweep.apply (.plain ["Onion"]) ⟨["Onion"]⟩).outcome = .ok ⟨[]⟩ := by
  rw [ComponentRule.outcome_apply]
  rfl

/-- The lone onion is what the sweeping rule looks for, and leaves nothing to its collector;
pouring and seasoning spare every component. -/
theorem emptied_only_by_collectors_sweep :
    (∃ ps, Selection.Least (sweep.lhs.clause.Places (.plain ["Onion"]) ⟨["Onion"]⟩) ps ∧
      ∀ token ∈ sweep.rhs.tokens, token.isCollector = true ∧
        ∃ collector ∈ sweep.lhs.clause.collectors, collector.name = token.name ∧
          ∀ name ∈ Component.without ⟨["Onion"]⟩ ps,
            Slot.allows (.plain ["Onion"]) collector.qualifier name = false) ∧
    (∃ out, (pour.apply twisting.oracle water).outcome = .ok out ∧
      ¬ ∃ c ∈ out.components, c.tokens = []) ∧
    (∃ v, ((spice 2).reduceMixture ⟨[⟨["salty", "hot", "salty", "Onion"]⟩]⟩).outcome = .ok v ∧
      v.Solid) := by
  refine ⟨?_, ?_, ?_⟩
  · obtain ⟨out, hout, hempty⟩ :=
      (emptied_only_by_collectors sweeping).1 _ _ parse_sweep ⟨["Onion"]⟩ (by decide)
    obtain rfl := Except.ok.inj (hout.symm.trans outcome_apply_sweep)
    exact (hempty.mp rfl).2
  · obtain ⟨out, hout, hempty⟩ :=
      (emptied_only_by_collectors twisting).2.1 pour water (by simp [Mixture.Solid, water])
    refine ⟨out, hout, fun h => ?_⟩
    obtain ⟨found, -, product, hproduct, hcollectors⟩ := hempty.mp h
    revert hcollectors
    rcases List.mem_pair.mp hproduct with rfl | rfl
    · simp [Token.isCollector, Token.class?]
    · simp [Token.isCollector, Token.class?]
  · have hcomponents : ∀ rule ∈ (spice 2).rules, rule.isComponent = true := by
      simp [spice, Rule.isComponent]
    have hsalty : ((spice 2).reduceComponent ⟨["salty", "hot", "salty", "Onion"]⟩).outcome =
        .ok ⟨["hot", "salty", "Onion"]⟩ := reduceComponent_salty
    have hreduced : ((spice 2).reduceMixture ⟨[⟨["salty", "hot", "salty", "Onion"]⟩]⟩).outcome =
        .ok ⟨[⟨["hot", "salty", "Onion"]⟩]⟩ :=
      (reduceMixture_eq_ok_iff_forall₂ hcomponents).mpr (.cons hsalty .nil)
    obtain ⟨-, -, hreduce, htemplates⟩ := emptied_only_by_collectors (spice 2)
    refine ⟨_, hreduced, hreduce ?_ _ _ (by simp [Mixture.Solid]) hreduced⟩
    intro rule hrule
    obtain rfl := List.mem_singleton.mp hrule
    exact htemplates _ (by decide)

/-- A lone onion is taken away, and an empty component stays. -/
theorem reduceMixture_leaves_empty_component :
    ComponentRule.parse "o1 Onion -> o1" = .ok sweep ∧
      (sweep.apply (.plain ["Onion"]) ⟨["Onion"]⟩).outcome = .ok ⟨[]⟩ ∧
      (sweeping.reduceMixture ⟨[⟨["Onion"]⟩]⟩).outcome = .ok ⟨[⟨[]⟩]⟩ := by
  have hreduced : (sweeping.reduceComponent ⟨["Onion"]⟩).outcome = .ok ⟨[]⟩ :=
    reduceComponent_of_one_change (r := sweep) rfl rfl (by decide) rfl (by decide)
  have hcomponents : ∀ rule ∈ sweeping.rules, rule.isComponent = true := by
    simp [sweeping, Rule.isComponent]
  refine ⟨parse_sweep, outcome_apply_sweep, ?_⟩
  exact (reduceMixture_eq_ok_iff_forall₂ hcomponents).mpr (.cons hreduced .nil)

end Simmer.RuleSystem
