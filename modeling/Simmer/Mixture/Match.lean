import Simmer.Mixture.Pattern
import Simmer.Pattern.Match
import Simmer.Traced

/-!
Matching a mixture pattern against a mixture: every element takes a component of its own, and
the bindings so far go along. A pair of element and component contributes the one match that
`Pattern.match?` finds; an element that would bind a name to another value than an earlier one
has to look for another component. Components that are not taken are left over.
-/
namespace Simmer

namespace Pattern

/-- The match, with an event for the attempt at each clause: the veto comes first. -/
def probe (oracle : Oracle) (component : Component) : Pattern → Traced (Option Bindings)
  | plain c =>
    let result := c.match? oracle component
    ⟨result, [.matched (plain c) component result]⟩
  | .unless c veto => do
    match ← veto.probe oracle component with
    | some _ => ⟨none, [.vetoed component veto]⟩
    | none =>
      let result := c.match? oracle component
      ⟨result, [.matched (.unless c veto) component result]⟩

@[simp]
theorem value_probe (oracle : Oracle) (component : Component) (p : Pattern) :
    (p.probe oracle component).value = p.match? oracle component := by
  induction p with
  | plain c => rfl
  | «unless» c veto ih =>
    simp only [probe, match?, Traced.value_bind, ih]
    cases veto.match? oracle component <;> rfl

end Pattern

structure MixtureMatch where
  bound : Bindings
  leftovers : Mixture
deriving DecidableEq, Repr

/-- What an assignment keeps: which components are taken, and what is bound so far. -/
structure Assignment where
  taken : List Bool
  bound : Bindings
deriving DecidableEq, Repr

namespace Assignment

def start (size : Nat) : Assignment :=
  ⟨List.replicate size false, .empty⟩

/-- Take a component with the bindings found there, and go on. When this fails, the component
is given back and the names that came with it are forgotten. -/
def taking (s : Assignment) (index : Nat) (found : Bindings)
    (goOn : Assignment → Traced (Option Unit × Assignment)) :
    Traced (Option Unit × Assignment) := do
  match ← goOn ⟨s.taken.set index true, s.bound.absorb found⟩ with
  | (some (), last) => pure (some (), last)
  | (none, last) =>
    pure (none, ⟨last.taken.set index false, last.bound.forget (s.bound.newNames found)⟩)

/-- Take the component at an index for a pattern, if it is free, matches and agrees with what
is bound. -/
def attempt (oracle : Oracle) (p : Pattern)
    (goOn : Assignment → Traced (Option Unit × Assignment)) (x : Component × Nat)
    (s : Assignment) : Traced (Option Unit × Assignment) := do
  if s.taken[x.2]? = some false then
    match ← p.probe oracle x.1 with
    | none => pure (none, s)
    | some found =>
      if s.bound.agrees found then s.taking x.2 found goOn else pure (none, s)
  else pure (none, s)

/-- Assign components to the patterns one by one. -/
def assign (oracle : Oracle) (components : List Component) :
    List Pattern → Assignment → Traced (Option Unit × Assignment)
  | [], s => pure (some (), s)
  | p :: ps, s =>
    Selection.attempts (fun x s => attempt oracle p (assign oracle components ps) x s)
      components.zipIdx s

/-- The components that are not taken. -/
def leftovers (components : List Component) (s : Assignment) : Mixture :=
  ⟨((components.zip s.taken).filter fun x => !x.2).map Prod.fst⟩

end Assignment

namespace MixturePattern

def probe (oracle : Oracle) (p : MixturePattern) (m : Mixture) :
    Traced (Option MixtureMatch) := do
  match ← Assignment.assign oracle m.components p.elements (.start m.components.length) with
  | (none, _) => ⟨none, [.mixtureMissed p m]⟩
  | (some (), last) =>
    let leftovers := last.leftovers m.components
    ⟨some ⟨last.bound, leftovers⟩, [.mixtureMatched p m last.bound leftovers]⟩

def match? (oracle : Oracle) (m : Mixture) (p : MixturePattern) : Option MixtureMatch :=
  (p.probe oracle m).value

end MixturePattern

end Simmer
