import Simmer.Proofs.Reduction.Invariant
import Simmer.Proofs.Reduction.Normal
import Simmer.Proofs.Rule.Names

/-!
Where the tokens of a reduced mixture come from. Along a reduction the tokens stay among those
of the input and the constants that the right sides of the rules write. A constant that was
read does not look like a variable, so the name of a variable is found in a result only where
the input has it as a token.
-/
namespace Simmer

namespace RuleSystem

variable {s : RuleSystem} {words : List String}

/-- The constants that the right sides of the rules write. -/
def written (s : RuleSystem) : List String :=
  s.rules.flatMap fun rule => rule.templates.flatMap Template.constants

theorem mem_written {name : String} :
    name ∈ s.written ↔ ∃ rule ∈ s.rules, ∃ t ∈ rule.templates, Token.constant name ∈ t.tokens := by
  simp [written, Template.mem_constants]

theorem constants_subset_of_written (hwords : s.written ⊆ words) :
    ∀ rule ∈ s.rules, ∀ t ∈ rule.templates, t.constants ⊆ words := by
  intro rule hrule t ht
  exact flatMap_subset_iff.mp (flatMap_subset_iff.mp hwords rule hrule) t ht

theorem keeps_tokens_component (hwords : s.written ⊆ words) :
    (Rewriting.ofComponents s.oracle).Keeps s.rules fun c => c.tokens ⊆ words :=
  fun rule hrule _ _ hc happly =>
    rule.tokens_applyComponent_subset (constants_subset_of_written hwords rule hrule) hc happly

theorem keeps_tokens_mixture (hwords : s.written ⊆ words) :
    (Rewriting.ofMixtures s.oracle).Keeps s.rules fun m => ∀ c ∈ m.components, c.tokens ⊆ words := by
  intro rule hrule m n hm happly
  have hconstants := constants_subset_of_written hwords rule hrule
  exact Mixture.tokens_subset.mp
    (rule.tokens_applyMixture_subset hconstants (Mixture.tokens_subset.mpr hm) happly)

theorem reduceComponent_tokens_subset {c v : Component}
    (h : (s.reduceComponent c).outcome = .ok v) : v.tokens ⊆ c.tokens ++ s.written :=
  reduceComponent_keeps (keeps_tokens_component (List.subset_append_right _ _))
    (List.subset_append_left _ _) h

theorem reduceMixture_tokens_subset {m v : Mixture}
    (h : (s.reduceMixture m).outcome = .ok v) : v.tokens ⊆ m.tokens ++ s.written := by
  have hwritten : s.written ⊆ m.tokens ++ s.written := List.subset_append_right _ _
  refine Mixture.tokens_subset.mpr (reduceMixture_keeps (keeps_tokens_component hwritten)
    (keeps_tokens_mixture hwritten) ?_ h)
  exact Mixture.tokens_subset.mp (List.subset_append_left _ _)

/-- A reduction invents no token: what it ends with has tokens of the input and constants that
the right sides of the rules write. Where the rules were read, no name of a variable is found in
it that is not a token of the input. -/
theorem reduction_invents_no_token (s : RuleSystem) :
    (∀ c v : Component, (s.reduceComponent c).outcome = .ok v → ∀ token ∈ v.tokens,
      token ∈ c.tokens ∨
        ∃ rule ∈ s.rules, ∃ t ∈ rule.templates, Token.constant token ∈ t.tokens) ∧
    (∀ m v : Mixture, (s.reduceMixture m).outcome = .ok v →
      ∀ c ∈ v.components, ∀ token ∈ c.tokens,
        (∃ d ∈ m.components, token ∈ d.tokens) ∨
          ∃ rule ∈ s.rules, ∃ t ∈ rule.templates, Token.constant token ∈ t.tokens) ∧
    ((∀ rule ∈ s.rules, rule.TemplatesRead) →
      (∀ c v : Component, (s.reduceComponent c).outcome = .ok v → ∀ token ∈ v.tokens,
        Token.NamesVariable token → token ∈ c.tokens) ∧
      (∀ m v : Mixture, (s.reduceMixture m).outcome = .ok v →
        ∀ c ∈ v.components, ∀ token ∈ c.tokens, Token.NamesVariable token →
          ∃ d ∈ m.components, token ∈ d.tokens)) := by
  have hcomponent : ∀ c v : Component, (s.reduceComponent c).outcome = .ok v →
      ∀ token ∈ v.tokens, token ∈ c.tokens ∨ token ∈ s.written :=
    fun c v h token htoken => List.mem_append.mp (reduceComponent_tokens_subset h htoken)
  have hmixture : ∀ m v : Mixture, (s.reduceMixture m).outcome = .ok v →
      ∀ c ∈ v.components, ∀ token ∈ c.tokens,
        (∃ d ∈ m.components, token ∈ d.tokens) ∨ token ∈ s.written := by
    intro m v h c hc token htoken
    have hmem := reduceMixture_tokens_subset h (List.mem_flatMap.mpr ⟨c, hc, htoken⟩)
    exact (List.mem_append.mp hmem).imp_left List.mem_flatMap.mp
  simp only [mem_written] at hcomponent hmixture
  refine ⟨hcomponent, hmixture, ?_⟩
  intro hread
  have hconstant : ∀ token, Token.NamesVariable token →
      ¬ ∃ rule ∈ s.rules, ∃ t ∈ rule.templates, Token.constant token ∈ t.tokens := by
    intro token hname hwritten
    obtain ⟨rule, hrule, t, ht, hmem⟩ := hwritten
    exact Rule.not_namesVariable_of_templatesRead (hread rule hrule) ht hmem hname
  constructor
  · intro c v h token htoken hname
    exact (hcomponent c v h token htoken).resolve_right (hconstant token hname)
  · intro m v h c hc token htoken hname
    exact (hmixture m v h c hc token htoken).resolve_right (hconstant token hname)

/-- Seasoning keeps tokens of the onion, pouring brings in constants of its products, and the
collector of the seasoning rule is not found in what it makes. -/
theorem reduction_invents_no_token_kitchen :
    (∀ token ∈ ["hot", "salty", "Onion"], token ∈ ["salty", "hot", "salty", "Onion"] ∨
      ∃ rule ∈ (kitchen 2).rules, ∃ t ∈ rule.templates, Token.constant token ∈ t.tokens) ∧
    ((∃ d ∈ water.components, "cold" ∈ d.tokens) ∨
      ∃ rule ∈ twisting.rules, ∃ t ∈ rule.templates, Token.constant "cold" ∈ t.tokens) ∧
    Token.NamesVariable "o1" ∧ "o1" ∉ ["hot", "salty", "Onion"] := by
  have hread : ∀ rule ∈ (kitchen 2).rules, rule.TemplatesRead := by
    have hseason : Rule.TemplatesRead (.component season) := by
      intro t ht
      obtain rfl := List.mem_singleton.mp ht
      exact ⟨"o1 salty i1", rfl⟩
    have hstir : Rule.TemplatesRead (.mixture stir) := by
      intro t ht
      obtain rfl := List.mem_singleton.mp ht
      exact ⟨"Onion", rfl⟩
    exact List.forall_mem_cons.mpr ⟨hseason, List.forall_mem_singleton.mpr hstir⟩
  have hname : Token.NamesVariable "o1" := ⟨"o1", .var .collector "1" none, rfl, rfl, rfl⟩
  have hkitchen := reduction_invents_no_token (kitchen 2)
  refine ⟨hkitchen.1 _ _ reduceComponent_salty, ?_, hname, ?_⟩
  · exact (reduction_invents_no_token twisting).2.1 _ _ reduceMixture_water
      ⟨["hot", "cold", "Onion"]⟩ (by simp [twins]) "cold" (by simp)
  · intro hmem
    have hinput := (hkitchen.2.2 hread).1 _ _ reduceComponent_salty "o1" hmem hname
    exact absurd hinput (by decide)

end RuleSystem

end Simmer
