import Simmer.Condition.Basic
import Simmer.Fault
import Simmer.Oracle

/-!
Tokens of patterns and templates. A token is a constant or a variable; a variable is named
by the letter of its class and a run of digits, and may carry a condition on tags. Where a
token stands decides its category: the last token of a component is its base.
-/
namespace Simmer

inductive VariableClass where
  | modifier
  | ingredient
  | collector
deriving DecidableEq, Repr

namespace VariableClass

def letter : VariableClass → Char
  | modifier => 'm'
  | ingredient => 'i'
  | collector => 'o'

def ofLetter? (c : Char) : Option VariableClass :=
  if c = 'm' then some modifier
  else if c = 'i' then some ingredient
  else if c = 'o' then some collector
  else none

end VariableClass

inductive Category where
  | modifier
  | ingredientModifier
  | ingredientBase
  | collector
deriving DecidableEq, Repr

namespace Category

def isBase (c : Category) : Bool :=
  c = ingredientBase

def ofIngredient (last : Bool) : Category :=
  if last then ingredientBase else ingredientModifier

/-- The category of a constant: an ingredient at the base or in front of it, or a modifier. -/
def ofConstant (oracle : Oracle) (name : String) (last : Bool) : Category :=
  if oracle.isBase name then ofIngredient last else modifier

end Category

inductive Token where
  | constant (name : String)
  | var (cls : VariableClass) (digits : String) (qualifier : Option Condition)
deriving DecidableEq, Repr

namespace Token

def isVariable : Token → Bool
  | constant _ => false
  | var .. => true

def class? : Token → Option VariableClass
  | constant _ => none
  | var cls _ _ => some cls

def qualifier? : Token → Option Condition
  | constant _ => none
  | var _ _ qualifier => qualifier

def isCollector (t : Token) : Bool :=
  t.class? = some .collector

/-- The constant, or the name of the variable without its qualifier. -/
def name : Token → String
  | constant name => name
  | var cls digits _ => String.singleton cls.letter ++ digits

def text : Token → String
  | constant name => name
  | var cls digits none => (var cls digits none).name
  | var cls digits (some c) => (var cls digits none).name ++ ":" ++ c.text

def category (oracle : Oracle) (last : Bool) : Token → Category
  | constant name => .ofConstant oracle name last
  | var .modifier _ _ => .modifier
  | var .ingredient _ _ => .ofIngredient last
  | var .collector _ _ => .collector

/-- Refuses a modifier variable in the base slot. -/
def checkSlot (last : Bool) (t : Token) : Except Fault Unit :=
  if last ∧ t.class? = some .modifier then .error (.invalidToken t.text .modifierAsBase)
  else .ok ()

/-- Refuses a modifier variable at the end of a sequence. -/
def checkBase (tokens : List Token) : Except Fault Unit :=
  match tokens.getLast? with
  | none => .ok ()
  | some last => last.checkSlot true

end Token

end Simmer
