import Simmer.Groups
import Simmer.Pattern.Reader

/-!
Patterns over a mixture: one pattern for each component that a match takes.
-/
namespace Simmer

structure MixturePattern where
  elements : List Pattern
deriving DecidableEq, Repr

namespace MixturePattern

def text (p : MixturePattern) : String :=
  Groups.write (p.elements.map Pattern.text)

def size (p : MixturePattern) : Nat :=
  p.elements.length

def isEmpty (p : MixturePattern) : Bool :=
  p.elements.isEmpty

/-- Whether some element declares the collector. -/
def declares (p : MixturePattern) (name : String) : Bool :=
  p.elements.any fun element => element.declares name

/-- The names that the elements bind, each once, by first appearance. -/
def boundNames (p : MixturePattern) : List String :=
  (p.elements.flatMap Pattern.boundNames).eraseDups

/-- Equality up to the order of collectors within an element. -/
def same (a b : MixturePattern) : Bool :=
  a.size == b.size && (a.elements.zip b.elements).all fun (p, q) => p.same q

def parse (text : String) : Except Fault MixturePattern := do
  let texts ← Groups.split text
  let elements ← texts.mapM Pattern.parse
  .ok ⟨elements⟩

end MixturePattern

end Simmer
