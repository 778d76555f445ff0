import Simmer.Reduction
import Simmer.RuleSet.Reader
import Simmer.TagTable

/-!
Reduction systems: rules in order, what is known of constants, and a cap on iterations.
A mixture is reduced by reducing each component alone and then all of them together.
-/
namespace Simmer

structure RuleSystem where
  rules : List Rule
  oracle : Oracle
  cap : Nat

namespace RuleSystem

def defaultCap : Nat := 1000

/-- The normal form of a component under the component rules. -/
def reduceComponent (s : RuleSystem) (c : Component) : Run Component :=
  (Rewriting.ofComponents s.oracle).drive s.cap (s.rules.filter Rule.isComponent) c

/-- The normal form of a mixture under all rules. -/
def reduceMixture (s : RuleSystem) (m : Mixture) : Run Mixture := do
  let components ← m.components.mapM s.reduceComponent
  (Rewriting.ofMixtures s.oracle).drive s.cap s.rules ⟨components⟩

/-- The rules of a set over a table to which the aliases of the set are added. -/
def ofRuleSet (set : RuleSet) (table : TagTable) (cap : Nat) : RuleSystem :=
  ⟨set.rules, (set.seedTags table).oracle, cap⟩

def ofText (text : String) (table : TagTable) : Except Fault RuleSystem := do
  let set ← RuleSet.parse text
  .ok (ofRuleSet set table defaultCap)

end RuleSystem

end Simmer
