import Simmer.Bindings
import Simmer.Component
import Simmer.Token.Reader

/-!
Templates: components that may mention variables. Instantiating one copies its constants,
puts for each variable the constant bound to it, and splices in the lists of its collectors.
-/
namespace Simmer

structure Template where
  tokens : List Token
deriving DecidableEq, Repr

namespace Template

def text (t : Template) : String :=
  Text.unwords (t.tokens.map Token.text)

/-- The variables mentioned, the first token for each name. -/
def mentions (t : Template) : List Token :=
  (t.tokens.filter Token.isVariable).foldl (fun seen token =>
    if seen.any fun other => other.name == token.name then seen else seen ++ [token]) []

def parse (text : String) : Except Fault Template := do
  let tokens ← Token.parseWords text
  if tokens = [] then .error (.invalidPattern text .emptyTemplate)
  else
    Token.checkBase tokens
    .ok ⟨tokens⟩

end Template

namespace Token

/-- The constants that a token of a template stands for. -/
def resolve (bound : Bindings) (t : Token) : Except Fault (List String) :=
  if t.isCollector then
    match bound.collected? t.name with
    | some values => .ok values
    | none => .error (.unboundVariable t.name)
  else if t.isVariable then
    match bound.single? t.name with
    | some value => .ok [value]
    | none => .error (.unboundVariable t.name)
  else .ok [t.name]

end Token

namespace Template

def instantiate (bound : Bindings) (t : Template) : Except Fault Component := do
  let parts ← t.tokens.mapM (Token.resolve bound)
  .ok ⟨parts.flatten⟩

end Template

end Simmer
