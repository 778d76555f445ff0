import Simmer.Selection
import Simmer.Text.Blank
import Simmer.Token.Basic

/-!
Patterns over a component. A clause lists the tokens to find, how strictly they must follow
the order of the component, and the collectors that keep what is left over. A pattern is a
clause, perhaps with a veto: a pattern that must not match for this one to match.
-/
namespace Simmer

structure Collector where
  digits : String
  qualifier : Option Condition
deriving DecidableEq, Repr

namespace Collector

def token (c : Collector) : Token :=
  .var .collector c.digits c.qualifier

def name (c : Collector) : String :=
  c.token.name

def text (c : Collector) : String :=
  c.token.text

end Collector

structure Clause where
  collectors : List Collector
  strictness : Strictness
  body : List Token
deriving DecidableEq, Repr

namespace Clause

/-- The marker as a list of words: a loose clause has none. -/
def markerWords (c : Clause) : List String :=
  if c.strictness = .loose then [] else [c.strictness.marker]

def words (c : Clause) : List String :=
  c.collectors.map Collector.text ++ c.markerWords ++ c.body.map Token.text

def declares (c : Clause) (name : String) : Bool :=
  c.collectors.any fun collector => collector.name == name

/-- The names a match binds: the collectors, then the variables of the body, each once. -/
def boundNames (c : Clause) : List String :=
  (c.collectors.map Collector.name ++ (c.body.filter Token.isVariable).map Token.name).eraseDups

/-- Equality up to the order of the collectors, whose names are distinct. -/
def same (a b : Clause) : Bool :=
  a.strictness = b.strictness && a.body = b.body &&
    a.collectors.length == b.collectors.length && a.collectors.all b.collectors.contains

end Clause

/-- The word between a clause and its veto. -/
def vetoMark : String := "!!"

inductive Pattern where
  | plain (clause : Clause)
  | unless (clause : Clause) (veto : Pattern)
deriving DecidableEq, Repr

namespace Pattern

def clause : Pattern → Clause
  | plain c => c
  | .unless c _ => c

def veto? : Pattern → Option Pattern
  | plain _ => none
  | .unless _ veto => some veto

def words : Pattern → List String
  | plain c => c.words
  | .unless c veto => c.words ++ vetoMark :: veto.words

def text (p : Pattern) : String :=
  Text.unwords p.words

def declares (p : Pattern) (name : String) : Bool :=
  p.clause.declares name

/-- The veto binds nothing. -/
def boundNames (p : Pattern) : List String :=
  p.clause.boundNames

/-- Equality up to the order of the collectors. -/
def same : Pattern → Pattern → Bool
  | plain a, plain b => a.same b
  | .unless a v, .unless b w => a.same b && v.same w
  | _, _ => false

end Pattern

end Simmer
