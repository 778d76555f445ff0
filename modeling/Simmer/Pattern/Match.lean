import Simmer.Bindings
import Simmer.Component
import Simmer.Pattern.Basic

/-!
Matching a pattern against a component. The tokens of the body are placed one by one onto
tokens of the component, by a search that keeps one trail of bindings and one pool of targets
and takes back what it tried in vain. A token fits where the categories are equal, a constant
meets its own name, and a qualifier is satisfied by the tags. Whatever is not placed goes to
the collectors, and each keeps what its qualifier lets through.
-/
namespace Simmer

/-- A token of a component, at its position. -/
structure Target where
  name : String
  index : Nat
  category : Category
deriving DecidableEq, Repr

namespace Target

/-- The target in front of the first one that does not stand before it. -/
def insert (target : Target) : List Target → List Target
  | [] => [target]
  | other :: others =>
    if target.index ≤ other.index then target :: other :: others
    else other :: target.insert others

/-- The targets by their positions. -/
def inOrder (targets : List Target) : List Target :=
  targets.foldr insert []

end Target

structure Slot where
  token : Token
  category : Category
deriving DecidableEq, Repr

namespace Slot

/-- Whether the tags of `name` satisfy a qualifier, if there is one. -/
def allows (oracle : Oracle) (qualifier : Option Condition) (name : String) : Bool :=
  match qualifier with
  | none => true
  | some c => c.satisfiedBy (oracle.tagsOf name)

def fits (oracle : Oracle) (slot : Slot) (target : Target) : Bool :=
  slot.category = target.category &&
    match slot.token with
    | .constant name => name == target.name
    | .var _ _ qualifier => allows oracle qualifier target.name

end Slot

namespace Component

def targets (oracle : Oracle) (c : Component) : List Target :=
  let size := c.tokens.length
  c.tokens.zipIdx.map fun (name, i) => ⟨name, i, .ofConstant oracle name (i + 1 == size)⟩

end Component

namespace Clause

def slots (oracle : Oracle) (c : Clause) : List Slot :=
  let size := c.body.length
  c.body.zipIdx.map fun (token, i) => ⟨token, token.category oracle (i + 1 == size)⟩

/-- Bind every collector to the leftovers that its qualifier lets through. -/
def collect (oracle : Oracle) (leftovers : List String) (collectors : List Collector)
    (bound : Bindings) : Bindings :=
  collectors.foldl (fun bound collector =>
    bound.insert collector.name
      (.collected (leftovers.filter (Slot.allows oracle collector.qualifier)))) bound

end Clause

/-- What a search keeps: the variables in the order of their binding with what they stand for,
the targets that strict slots passed over, and those that no slot has taken. -/
structure Search where
  trail : List (String × String)
  passed : List Target
  remaining : List Target
deriving DecidableEq, Repr

namespace Search

def start (targets : List Target) : Search :=
  ⟨[], [], targets⟩

def lookup? (s : Search) (name : String) : Option String :=
  (s.trail.find? fun entry => entry.1 == name).map Prod.snd

/-- The search in which a token stands for a constant, and whether the trail has grown for
this. There is none when the token is a variable that stands for another constant. -/
def bind? (s : Search) (token : Token) (constant : String) : Option (Bool × Search) :=
  if token.isVariable then
    match s.lookup? token.name with
    | some known => if known = constant then some (false, s) else none
    | none => some (true, { s with trail := s.trail ++ [(token.name, constant)] })
  else some (false, s)

def unbind (s : Search) : Search :=
  { s with trail := s.trail.dropLast }

/-- The search without the target at a position. A strict slot passes over those in front. -/
def take (s : Search) (strictness : Strictness) (position : Nat) : Search :=
  match strictness with
  | .loose => { s with remaining := s.remaining.eraseIdx position }
  | _ =>
    { s with
      passed := s.passed ++ s.remaining.take position
      remaining := s.remaining.drop (position + 1) }

/-- What `take` made of `s` and later steps left is put back to `s`. -/
def putBack (s : Search) (strictness : Strictness) (position : Nat) (target : Target)
    (last : Search) : Search :=
  match strictness with
  | .loose => { last with remaining := last.remaining.insertIdx position target }
  | _ =>
    { last with
      passed := last.passed.take s.passed.length
      remaining := s.remaining.take (position + 1) ++ last.remaining }

def bound (s : Search) : Bindings :=
  s.trail.foldl (fun bound (name, constant) => bound.insert name (.single constant)) .empty

/-- The targets that no slot has taken, in the order of the component. -/
def leftovers (s : Search) : List Target :=
  Target.inOrder (s.passed ++ s.remaining)

def finish (oracle : Oracle) (collectors : List Collector) (s : Search) : Bindings :=
  Clause.collect oracle (s.leftovers.map Target.name) collectors s.bound

/-- Take the target at a position for a slot, if it fits and agrees with the trail, and go on;
then take everything back. -/
def attempt (oracle : Oracle) (strictness : Strictness) (slot : Slot)
    (goOn : Search → Option Bindings × Search) (position : Nat) (s : Search) :
    Option Bindings × Search :=
  match s.remaining[position]? with
  | none => (none, s)
  | some target =>
    if slot.fits oracle target then
      match s.bind? slot.token target.name with
      | none => (none, s)
      | some (grown, noted) =>
        let (result, last) := goOn (noted.take strictness position)
        let last := noted.putBack strictness position target last
        (result, if grown then last.unbind else last)
    else (none, s)

/-- Place the slots one by one. A contiguous run, once begun, goes on with the next target. -/
def place (oracle : Oracle) (c : Clause) : Bool → List Slot → Search → Option Bindings × Search
  | _, [], s => (some (s.finish oracle c.collectors), s)
  | first, slot :: slots, s =>
    let candidates := (c.strictness.window first s.remaining).length
    Id.run (Selection.attempts
      (fun position s =>
        pure (attempt oracle c.strictness slot (place oracle c false slots) position s))
      (List.range candidates) s)

end Search

namespace Clause

def match? (oracle : Oracle) (c : Clause) (component : Component) : Option Bindings :=
  (Search.place oracle c true (c.slots oracle) (.start (component.targets oracle))).1

end Clause

namespace Pattern

def match? (oracle : Oracle) (component : Component) : Pattern → Option Bindings
  | plain c => c.match? oracle component
  | .unless c veto =>
    if (veto.match? oracle component).isSome then none else c.match? oracle component

end Pattern

end Simmer
