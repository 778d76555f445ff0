import Simmer.Proofs.Mixture.Assignment
import Simmer.Proofs.Selection.Order

/-!
Mixtures and order. The elements of a mixture pattern are a loose selection of components, so
whether they all find one is a matter of two multisets, the elements and the components. Which
component an element takes, and so what is bound and what is left over, may well change with
the order on either side.
-/
namespace Simmer.MixturePattern

variable {oracle : Oracle} {p q : MixturePattern} {m n : Mixture}

theorem isSome_match?_iff_fitting :
    (p.match? oracle m).isSome = true ↔
      ∃ ps found, Selection.Fitting .loose
        (fun (element : Pattern) i => element.match? oracle (candidate m i).1)
        p.elements m.components.length ps found := by
  simp only [← Option.ne_none_iff_isSome, Ne, match?_eq_none_iff, Classical.not_not,
    fitting_iff_assigns]

theorem isSome_match?_of_perm (helements : p.elements.Perm q.elements)
    (hcomponents : m.components.Perm n.components) :
    (p.match? oracle m).isSome = (q.match? oracle n).isSome := by
  have hpool : ((List.range m.components.length).map fun i => (candidate m i).1).Perm
      ((List.range n.components.length).map fun i => (candidate n i).1) := by
    rwa [← components_eq_map_range, ← components_eq_map_range]
  rw [Bool.eq_iff_iff, isSome_match?_iff_fitting, isSome_match?_iff_fitting]
  exact Selection.exists_fitting_loose_perm_iff (fun element c => element.match? oracle c)
    helements hpool

/-- A piece of onion with a modifier. -/
def oniony : Pattern :=
  .plain ⟨[], .loose, [.var .modifier "1" none, .constant "Onion"]⟩

/-- Anything hot. -/
def hot : Pattern :=
  .plain ⟨[], .loose, [.constant "hot", .var .ingredient "1" none]⟩

def stew : Mixture :=
  ⟨[⟨["hot", "Onion"]⟩, ⟨["cold", "Onion"]⟩, ⟨["hot", "Water"]⟩]⟩

/-- The stew with its two onions the other way round. -/
def turnedStew : Mixture :=
  ⟨[⟨["cold", "Onion"]⟩, ⟨["hot", "Onion"]⟩, ⟨["hot", "Water"]⟩]⟩

/-- Whether a mixture pattern matches depends neither on the order of its elements nor on the
order of the components. What it binds and what it leaves over may depend on either. -/
theorem matchability_ignores_order :
    (∀ (oracle : Oracle) (p q : MixturePattern) (m n : Mixture),
      p.elements.Perm q.elements → m.components.Perm n.components →
        (p.match? oracle m).isSome = (q.match? oracle n).isSome) ∧
    (∃ (oracle : Oracle) (p q : MixturePattern) (m : Mixture) (a b : MixtureMatch),
      p.elements.Perm q.elements ∧ p.match? oracle m = some a ∧ q.match? oracle m = some b ∧
        a.bound.same b.bound = false ∧ ¬ a.leftovers.components.Perm b.leftovers.components) ∧
    (∃ (oracle : Oracle) (p : MixturePattern) (m n : Mixture) (a b : MixtureMatch),
      m.components.Perm n.components ∧ p.match? oracle m = some a ∧ p.match? oracle n = some b ∧
        a.bound.same b.bound = false ∧ ¬ a.leftovers.components.Perm b.leftovers.components) := by
  refine ⟨fun _ _ _ _ _ => isSome_match?_of_perm, ?_, ?_⟩
  · -- The element that comes first takes the hot onion, which both of them match.
    exact ⟨.plain ["Onion", "Water"], ⟨[oniony, hot]⟩, ⟨[hot, oniony]⟩, stew, _, _,
      .swap hot oniony [], rfl, rfl, by decide, by decide⟩
  · exact ⟨.plain ["Onion", "Water"], ⟨[oniony, hot]⟩, stew, turnedStew, _, _,
      .swap _ _ _, rfl, rfl, by decide, by decide⟩

/-- The elements in one order match the stew, and in the other order the turned stew. -/
theorem matchability_ignores_order_stew :
    (match? (.plain ["Onion", "Water"]) stew ⟨[oniony, hot]⟩).isSome = true ∧
      (match? (.plain ["Onion", "Water"]) turnedStew ⟨[hot, oniony]⟩).isSome = true := by
  have hstew : (match? (.plain ["Onion", "Water"]) stew ⟨[oniony, hot]⟩).isSome = true := rfl
  have hsame := matchability_ignores_order.1 (.plain ["Onion", "Water"]) ⟨[oniony, hot]⟩
    ⟨[hot, oniony]⟩ stew turnedStew (.swap hot oniony []) (.swap _ _ _)
  exact ⟨hstew, hsame ▸ hstew⟩

end Simmer.MixturePattern
