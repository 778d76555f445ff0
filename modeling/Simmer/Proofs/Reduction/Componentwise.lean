import Simmer.Proofs.Reduction.Faults
import Simmer.Proofs.Reduction.Normal
import Mathlib.Data.Fin.VecNotation
import Mathlib.Logic.Equiv.Basic

/-!
Reduction without mixture rules. Once the components are reduced alone, every component rule
returns each of them, so the rules find nothing to do on the mixture as a whole: what a
component is reduced to does not depend on the others, nor on its place among them.
-/
namespace Simmer.RuleSystem

variable {s : RuleSystem}

/-- The phase that reduces the mixture as a whole returns what the components are reduced to. -/
theorem outcome_reduceMixture_of_components (hrules : ∀ rule ∈ s.rules, rule.isComponent = true)
    (m : Mixture) : (s.reduceMixture m).outcome =
      (m.components.mapM fun c => (s.reduceComponent c).outcome).map Mixture.mk := by
  rw [outcome_reduceMixture]
  cases hall : m.components.mapM fun c => (s.reduceComponent c).outcome with
  | error fault => rfl
  | ok components =>
    have hnormal : ∀ c ∈ components, s.NormalComponent c := by
      intro c hc
      obtain ⟨d, -, hd⟩ := Outcome.exists_of_mem_mapM hall hc
      exact normalComponent_of_reduceComponent hd
    apply Rewriting.drive_of_settled
    intro rule hrule
    cases rule with
    | component r => exact .still (applyMixture_of_fixed fun c hc => hnormal c hc _ hrule) rfl
    | mixture r => cases hrules _ hrule

theorem reduceMixture_eq_ok_iff_forall₂ (hrules : ∀ rule ∈ s.rules, rule.isComponent = true)
    {m w : Mixture} : (s.reduceMixture m).outcome = .ok w ↔
      List.Forall₂ (fun c v => (s.reduceComponent c).outcome = .ok v)
        m.components w.components := by
  rw [outcome_reduceMixture_of_components hrules, Outcome.map_eq_ok_iff,
    ← Outcome.mapM_eq_ok_iff]
  constructor
  · intro h
    obtain ⟨components, hcomponents, rfl⟩ := h
    exact hcomponents
  · intro h
    exact ⟨w.components, h, rfl⟩

theorem reduceMixture_eq_error_iff (hrules : ∀ rule ∈ s.rules, rule.isComponent = true)
    {m : Mixture} {fault : Fault} : (s.reduceMixture m).outcome = .error fault ↔
      ∃ before c after, m.components = before ++ c :: after ∧
        (∀ d ∈ before, ∃ v, (s.reduceComponent d).outcome = .ok v) ∧
        (s.reduceComponent c).outcome = .error fault := by
  rw [outcome_reduceMixture_of_components hrules, Outcome.map_eq_error_iff,
    Outcome.mapM_eq_error_iff]

/-- A mixture is reduced place by place. -/
theorem reduceMixture_ofFn_iff (hrules : ∀ rule ∈ s.rules, rule.isComponent = true) {n : Nat}
    {c v : Fin n → Component} :
    (s.reduceMixture ⟨List.ofFn c⟩).outcome = .ok ⟨List.ofFn v⟩ ↔
      ∀ i, (s.reduceComponent (c i)).outcome = .ok (v i) := by
  rw [reduceMixture_eq_ok_iff_forall₂ hrules, List.forall₂_iff_get]
  simp [Fin.forall_iff]

/-- Without mixture rules, a mixture is reduced to its reduced components, each in its place,
and the fault of the first component that has none is the fault of the mixture. -/
theorem reduceMixture_componentwise (hrules : ∀ rule ∈ s.rules, rule.isComponent = true) :
    (∀ m w : Mixture, (s.reduceMixture m).outcome = .ok w ↔
      List.Forall₂ (fun c v => (s.reduceComponent c).outcome = .ok v)
        m.components w.components) ∧
    (∀ (n : Nat) (c v : Fin n → Component) (σ : Equiv.Perm (Fin n)),
      (s.reduceMixture ⟨List.ofFn c⟩).outcome = .ok ⟨List.ofFn v⟩ →
        (s.reduceMixture ⟨List.ofFn (c ∘ σ)⟩).outcome = .ok ⟨List.ofFn (v ∘ σ)⟩) ∧
    (∀ (m : Mixture) fault, (s.reduceMixture m).outcome = .error fault ↔
      ∃ before c after, m.components = before ++ c :: after ∧
        (∀ d ∈ before, ∃ v, (s.reduceComponent d).outcome = .ok v) ∧
        (s.reduceComponent c).outcome = .error fault) := by
  refine ⟨fun m w => reduceMixture_eq_ok_iff_forall₂ hrules, ?_,
    fun m fault => reduceMixture_eq_error_iff hrules⟩
  intro n c v σ h
  have hplaces := (reduceMixture_ofFn_iff hrules).mp h
  exact (reduceMixture_ofFn_iff hrules).mpr fun i => hplaces (σ i)

/-- Seasoning alone, under a cap. -/
def spice (cap : Nat) : RuleSystem :=
  ⟨[.component season], .plain ["Onion", "Water"], cap⟩

/-- Twisting alone. -/
def twirl : RuleSystem :=
  ⟨[.component twist], .plain ["Onion", "Water"], defaultCap⟩

theorem reduceComponent_of_image {r : ComponentRule} {oracle : Oracle} {cap : Nat}
    {c : Component} (h : r.image oracle c = c) :
    (reduceComponent ⟨[.component r], oracle, cap⟩ c).outcome = .ok c := by
  apply reduceComponent_of_normal
  apply normalComponent_iff.mpr
  intro rule hrule
  obtain rfl : rule = .component r := List.mem_singleton.mp hrule
  exact settles_component_iff.mpr h

/-- The onion is seasoned wherever it lies, and a twin spoils a mixture whose components before
it are reduced. -/
theorem reduceMixture_componentwise_spice :
    ((spice 2).reduceMixture ⟨[⟨["Water"]⟩, ⟨["salty", "hot", "salty", "Onion"]⟩]⟩).outcome =
        .ok ⟨[⟨["Water"]⟩, ⟨["hot", "salty", "Onion"]⟩]⟩ ∧
      ((spice 2).reduceMixture ⟨[⟨["salty", "hot", "salty", "Onion"]⟩, ⟨["Water"]⟩]⟩).outcome =
        .ok ⟨[⟨["hot", "salty", "Onion"]⟩, ⟨["Water"]⟩]⟩ ∧
      ∃ fault, (twirl.reduceMixture
        ⟨[⟨["Water"]⟩, ⟨["hot", "cold", "Onion"]⟩]⟩).outcome = .error fault := by
  have hspice : ∀ rule ∈ (spice 2).rules, rule.isComponent = true := by
    simp [spice, Rule.isComponent]
  have htwirl : ∀ rule ∈ twirl.rules, rule.isComponent = true := by
    simp [twirl, Rule.isComponent]
  obtain ⟨hok, hplaces, -⟩ := reduceMixture_componentwise hspice
  obtain ⟨-, -, herror⟩ := reduceMixture_componentwise htwirl
  have hsalty : ((spice 2).reduceComponent ⟨["salty", "hot", "salty", "Onion"]⟩).outcome =
      .ok ⟨["hot", "salty", "Onion"]⟩ := reduceComponent_salty
  have hmixture := (hok ⟨[⟨["Water"]⟩, ⟨["salty", "hot", "salty", "Onion"]⟩]⟩
    ⟨[⟨["Water"]⟩, ⟨["hot", "salty", "Onion"]⟩]⟩).mpr
      (.cons (reduceComponent_of_image rfl) (.cons hsalty .nil))
  refine ⟨hmixture, ?_, ?_⟩
  · have hpair : ∀ c d : Component, List.ofFn ![c, d] = [c, d] := fun _ _ => rfl
    have hturned : ∀ c d : Component, List.ofFn (![c, d] ∘ Equiv.swap 0 1) = [d, c] :=
      fun _ _ => rfl
    have hpermuted := hplaces 2 ![⟨["Water"]⟩, ⟨["salty", "hot", "salty", "Onion"]⟩]
      ![⟨["Water"]⟩, ⟨["hot", "salty", "Onion"]⟩] (Equiv.swap 0 1)
    rw [hpair, hpair, hturned, hturned] at hpermuted
    exact hpermuted hmixture
  · obtain ⟨rule, state, hfault⟩ := diverges_reduceComponent_twin
    refine ⟨_, (herror _ _).mpr ⟨[⟨["Water"]⟩], _, [], rfl, ?_, hfault⟩⟩
    exact List.forall_mem_singleton.mpr ⟨_, reduceComponent_of_image rfl⟩

end Simmer.RuleSystem
