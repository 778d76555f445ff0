/-!
What can go wrong when rules are read or run. A fault names its cause; the sentence for it
is made by `Fault.message` alone. A failed match is no fault.
-/
namespace Simmer

inductive ConditionFlaw where
  | endOfText
  | mixedConnectives
  | missingClose
  | expectedTag (before : Char)
  | blank
  | strayClose
  | unexpected (found : Char)
deriving DecidableEq, Repr

namespace ConditionFlaw

def message : ConditionFlaw → String
  | endOfText => "unexpected end of condition"
  | mixedConnectives => "'&' and '|' cannot be mixed without parentheses"
  | missingClose => "missing ')'"
  | expectedTag c => "expected a tag before '" ++ String.singleton c ++ "'"
  | blank => "whitespace is not allowed"
  | strayClose => "unbalanced ')'"
  | unexpected c => "unexpected '" ++ String.singleton c ++ "'"

end ConditionFlaw

inductive TokenFlaw where
  | empty
  | blank
  | strayQualifier
  | emptyQualifier
  | badQualifier (flaw : ConditionFlaw)
  | modifierAsBase
  | joinInBody
  | collectorInBody
deriving DecidableEq, Repr

namespace TokenFlaw

def message : TokenFlaw → String
  | empty => "empty token"
  | blank => "tokens cannot contain whitespace"
  | strayQualifier => "a qualifier must follow a variable such as 'i1' or 'm2'"
  | emptyQualifier => "empty qualifier"
  | badQualifier flaw => "bad qualifier: " ++ flaw.message
  | modifierAsBase => "a modifier variable cannot stand in the base slot"
  | joinInBody => "'+' only joins mixture elements"
  | collectorInBody => "collector variables belong in the pattern header"

end TokenFlaw

inductive PatternFlaw where
  | missingVeto
  | repeatedCollector (name : String)
  | lateMarker (marker : String)
  | emptyPattern
  | emptyTemplate
  | emptyComponent
  | expectedJoin
  | strayClose
  | missingClose
  | emptyElement
deriving DecidableEq, Repr

namespace PatternFlaw

def message : PatternFlaw → String
  | missingVeto => "'!!' must be followed by a pattern"
  | repeatedCollector name => "collector '" ++ name ++ "' declared twice"
  | lateMarker marker => "'" ++ marker ++ "' must come right after the collector header"
  | emptyPattern => "empty pattern"
  | emptyTemplate => "empty template"
  | emptyComponent => "a component needs at least a base"
  | expectedJoin => "expected '+' after ')'"
  | strayClose => "unbalanced ')'"
  | missingClose => "missing ')'"
  | emptyElement => "empty mixture element"

end PatternFlaw

inductive RuleFlaw where
  | missingArrow
  | secondArrow
  | unknownForm
  | missingColon
  | badAliasTag
  | badAliasMember
  | missingEquals
  | badResult
  | mixedJoins
  | badIngredient
deriving DecidableEq, Repr

namespace RuleFlaw

def message : RuleFlaw → String
  | missingArrow => "missing '->'"
  | secondArrow => "more than one '->'"
  | unknownForm => "expected a rule ('->' or '='), or a tag alias (':')"
  | missingColon => "missing ':'"
  | badAliasTag => "alias tag must be a single word"
  | badAliasMember => "alias members must be single words separated by ','"
  | missingEquals => "missing '='"
  | badResult => "expected exactly one '=' followed by a result"
  | mixedJoins => "'+' and '+>' cannot be mixed"
  | badIngredient => "each ingredient of a concise rule is one token"

end RuleFlaw

inductive Fault where
  | invalidToken (token : String) (flaw : TokenFlaw)
  | invalidCondition (condition : String) (flaw : ConditionFlaw)
  | invalidPattern (pattern : String) (flaw : PatternFlaw)
  | invalidRule (rule : String) (flaw : RuleFlaw)
  | unboundVariable (name : String)
  | undeclaredCollector (name : String)
  | diverging (rule state : String) (limit : Nat)
  | atLine (line : Nat) (fault : Fault)
deriving DecidableEq, Repr

namespace Fault

def message : Fault → String
  | invalidToken token flaw => "Invalid token '" ++ token ++ "': " ++ flaw.message
  | invalidCondition condition flaw =>
    "Invalid condition '" ++ condition ++ "': " ++ flaw.message
  | invalidPattern pattern flaw => "Invalid pattern '" ++ pattern ++ "': " ++ flaw.message
  | invalidRule rule flaw => "Invalid rule '" ++ rule ++ "': " ++ flaw.message
  | unboundVariable name =>
    "Template variable '" ++ name ++ "' is not bound by the left-hand side"
  | undeclaredCollector name =>
    "Collector '" ++ name ++ "' is not declared by any reactant of the mixture rule"
  | diverging rule state limit =>
    "Reduction diverged after " ++ toString limit ++ " steps (rule: " ++ rule ++
      ", state: " ++ state ++ ")"
  | atLine line fault => "line " ++ toString line ++ ": " ++ fault.message

/-- The fault itself, without the lines that were put around it. -/
def root : Fault → Fault
  | atLine _ fault => fault.root
  | fault => fault

def isDiverging (fault : Fault) : Bool :=
  match fault.root with
  | diverging .. => true
  | _ => false

end Fault

end Simmer
