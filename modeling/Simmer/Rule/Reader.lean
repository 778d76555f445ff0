import Simmer.Rule.Basic
import Simmer.Text.Cut

/-!
Reading rules. One arrow stands between the two sides. A left side that begins with a
parenthesis, or has a `+` outside all parentheses, belongs to a mixture rule.
-/
namespace Simmer

namespace Rule

def splitArrow (text : String) : Except Fault (String × String) :=
  match Text.cutAtPair '-' '>' text.toList with
  | none => .error (.invalidRule text .missingArrow)
  | some (lhs, rhs) =>
    if (Text.cutAtPair '-' '>' rhs).isSome then .error (.invalidRule text .secondArrow)
    else .ok (String.ofList (Text.trim lhs), String.ofList (Text.trim rhs))

end Rule

namespace ComponentRule

def parse (text : String) : Except Fault ComponentRule := do
  let (lhs, rhs) ← Rule.splitArrow text
  let pattern ← Pattern.parse lhs
  let template ← Template.parse rhs
  of? pattern template

end ComponentRule

namespace MixtureRule

/-- The products are read before the reactants. -/
def parse (text : String) : Except Fault MixtureRule := do
  let (lhs, rhs) ← Rule.splitArrow text
  let texts ← Groups.split rhs
  let products ← texts.mapM Template.parse
  let reactants ← MixturePattern.parse lhs
  of? reactants products

end MixtureRule

namespace Rule

/-- Whether a left side belongs to a mixture rule. -/
def isMixtureSide (lhs : String) : Bool :=
  lhs.toList.head? == some '(' || Groups.hasOuterJoin 0 lhs.toList

def parse (text : String) : Except Fault Rule := do
  let (lhs, _) ← splitArrow text
  if isMixtureSide lhs then
    let rule ← MixtureRule.parse text
    .ok (.mixture rule)
  else
    let rule ← ComponentRule.parse text
    .ok (.component rule)

end Rule

end Simmer
