import Simmer.Json.Value
import Simmer.Mixture.Basic

/-!
Components and mixtures as JSON: a component is the list of its tokens, a mixture the list of
its components. Neither is checked to have any.
-/
namespace Simmer

namespace Component

def read : Json.Reader Component := fun cs =>
  (Json.readList Json.readString cs).map fun (tokens, rest) => (⟨tokens⟩, rest)

def parseJson (text : String) : Except Json.Flaw Component :=
  Json.readAll read text

end Component

namespace Mixture

def read : Json.Reader Mixture := fun cs =>
  (Json.readList Component.read cs).map fun (components, rest) => (⟨components⟩, rest)

def parseJson (text : String) : Except Json.Flaw Mixture :=
  Json.readAll read text

end Mixture

end Simmer
