import Simmer.Fault
import Simmer.Text.Blank

/-!
Components: a base token with the modifiers applied to it in front. The order on components
compares their tokens one by one, each by code point.
-/
namespace Simmer

structure Component where
  tokens : List String
deriving DecidableEq, Repr, Hashable, Inhabited

namespace Component

def text (c : Component) : String :=
  Text.unwords c.tokens

def base? (c : Component) : Option String :=
  c.tokens.getLast?

/-- Everything in front of the base. -/
def modifiers (c : Component) : List String :=
  c.tokens.dropLast

def size (c : Component) : Nat :=
  c.tokens.length

def isEmpty (c : Component) : Bool :=
  c.tokens.isEmpty

instance : Ord Component := ⟨fun a b => compare a.tokens b.tokens⟩

/-- A component is its words, of which it needs one. -/
def parse (text : String) : Except Fault Component :=
  match Text.words text with
  | [] => .error (.invalidPattern text .emptyComponent)
  | word :: words => .ok ⟨word :: words⟩

end Component

end Simmer
