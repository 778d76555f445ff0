import Simmer.Mixture.Match

/-!
Applying rules. A rule whose left side does not match leaves the value as it is; an event
tells of every application that changes the value. A component rule applies to a mixture by
applying to each of its components, and a mixture rule leaves a lone component alone.
-/
namespace Simmer

namespace ComponentRule

/-- The new component, or `none` when the pattern does not match. -/
def tryApply (oracle : Oracle) (r : ComponentRule) (c : Component) : Run (Option Component) := do
  match ← ExceptT.lift (r.lhs.probe oracle c) with
  | none => pure none
  | some bound =>
    let out ← Run.ofExcept (r.rhs.instantiate bound)
    pure (some out)

def apply (oracle : Oracle) (r : ComponentRule) (c : Component) : Run Component := do
  match ← r.tryApply oracle c with
  | none => pure c
  | some out =>
    if out = c then pure out
    else
      Run.tell [.turned (.component r) (.component c) (.component out)]
      pure out

end ComponentRule

namespace MixtureRule

/-- The products and then the leftovers, or `none` when not all reactants are there. -/
def tryApply (oracle : Oracle) (r : MixtureRule) (m : Mixture) : Run (Option Mixture) := do
  match ← ExceptT.lift (r.reactants.probe oracle m) with
  | none => pure none
  | some found =>
    let products ← Run.ofExcept (r.products.mapM (Template.instantiate found.bound))
    pure (some ⟨products ++ found.leftovers.components⟩)

def apply (oracle : Oracle) (r : MixtureRule) (m : Mixture) : Run Mixture := do
  match ← r.tryApply oracle m with
  | none => pure m
  | some out =>
    if out.same m then pure out
    else
      Run.tell [.turned (.mixture r) (.mixture m) (.mixture out)]
      pure out

end MixtureRule

namespace Rule

def applyComponent (oracle : Oracle) (c : Component) : Rule → Run Component
  | component r => r.apply oracle c
  | mixture _ => pure c

def applyMixture (oracle : Oracle) (m : Mixture) : Rule → Run Mixture
  | component r => do
    let components ← m.components.mapM (r.apply oracle)
    pure ⟨components⟩
  | mixture r => r.apply oracle m

end Rule

end Simmer
