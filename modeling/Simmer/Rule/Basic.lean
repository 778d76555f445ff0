import Simmer.Mixture.Pattern
import Simmer.Template

/-!
Rules. A component rule turns a component that its pattern matches into its template; a
mixture rule takes a component for each of its reactants and adds its products. A rule is
closed: whatever its right side mentions, its left side binds, collectors as collectors.
`of?` is the only check of this, and names the first variable that fails it.
-/
namespace Simmer

namespace Pattern

/-- Whether a match binds the variable in the way a template uses it. -/
def supplies (p : Pattern) (t : Token) : Bool :=
  if t.isCollector then p.declares t.name else p.boundNames.contains t.name

end Pattern

namespace MixturePattern

/-- Whether a match binds the variable in the way a template uses it. -/
def supplies (p : MixturePattern) (t : Token) : Bool :=
  if t.isCollector then p.declares t.name else p.boundNames.contains t.name

end MixturePattern

structure ComponentRule where
  lhs : Pattern
  rhs : Template
  closed : ∀ t ∈ rhs.mentions, lhs.supplies t = true
deriving DecidableEq, Repr

namespace ComponentRule

def of? (lhs : Pattern) (rhs : Template) : Except Fault ComponentRule :=
  match h : rhs.mentions.find? fun t => !lhs.supplies t with
  | none => .ok ⟨lhs, rhs, fun t ht => by simpa using List.find?_eq_none.mp h t ht⟩
  | some t => .error (.unboundVariable t.name)

def text (r : ComponentRule) : String :=
  r.lhs.text ++ " -> " ++ r.rhs.text

/-- Equality up to the order of collectors. -/
def same (a b : ComponentRule) : Bool :=
  a.lhs.same b.lhs && a.rhs = b.rhs

end ComponentRule

structure MixtureRule where
  reactants : MixturePattern
  products : List Template
  closed : ∀ t ∈ products.flatMap Template.mentions, reactants.supplies t = true
deriving DecidableEq, Repr

namespace MixtureRule

/-- The fault of a variable that the reactants do not supply. -/
def unsupplied (t : Token) : Fault :=
  if t.isCollector then .undeclaredCollector t.name else .unboundVariable t.name

def of? (reactants : MixturePattern) (products : List Template) : Except Fault MixtureRule :=
  match h : (products.flatMap Template.mentions).find? fun t => !reactants.supplies t with
  | none => .ok ⟨reactants, products, fun t ht => by simpa using List.find?_eq_none.mp h t ht⟩
  | some t => .error (unsupplied t)

def text (r : MixtureRule) : String :=
  r.reactants.text ++ " -> " ++ Groups.write (r.products.map Template.text)

/-- Equality up to the order of collectors. -/
def same (a b : MixtureRule) : Bool :=
  a.reactants.same b.reactants && a.products = b.products

end MixtureRule

inductive Rule where
  | component (rule : ComponentRule)
  | mixture (rule : MixtureRule)
deriving DecidableEq, Repr

namespace Rule

def text : Rule → String
  | component rule => rule.text
  | mixture rule => rule.text

def isComponent : Rule → Bool
  | component _ => true
  | mixture _ => false

/-- Equality up to the order of collectors. -/
def same : Rule → Rule → Bool
  | component a, component b => a.same b
  | mixture a, mixture b => a.same b
  | _, _ => false

end Rule

end Simmer
