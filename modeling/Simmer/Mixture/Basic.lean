import Simmer.Component
import Simmer.Groups

/-!
Mixtures: components side by side, equal ones included. Two mixtures are the same when they
hold the same components equally often, in whatever order; `key` is the sorted list of them,
one value for all mixtures that are the same.
-/
namespace Simmer

structure Mixture where
  components : List Component
deriving DecidableEq, Repr, Inhabited

namespace Mixture

def text (m : Mixture) : String :=
  Groups.write (m.components.map Component.text)

def size (m : Mixture) : Nat :=
  m.components.length

def isEmpty (m : Mixture) : Bool :=
  m.components.isEmpty

def push (m : Mixture) (c : Component) : Mixture :=
  ⟨m.components ++ [c]⟩

def key (m : Mixture) : List (List String) :=
  (m.components.map Component.tokens).mergeSort fun a b => (compare a b).isLE

def same (a b : Mixture) : Bool :=
  a.key == b.key

def parse (text : String) : Except Fault Mixture := do
  let elements ← Groups.split text
  let components ← elements.mapM Component.parse
  .ok ⟨components⟩

end Mixture

end Simmer
