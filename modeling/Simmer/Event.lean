import Simmer.Level
import Simmer.Mixture.Basic
import Simmer.Rule.Basic

/-!
What the engine tells while it works. An event keeps the values it is about; `message` makes
the sentence for it.
-/
namespace Simmer

/-- A value under reduction. -/
inductive Subject where
  | component (value : Component)
  | mixture (value : Mixture)
deriving DecidableEq, Repr

namespace Subject

def text : Subject → String
  | component value => value.text
  | mixture value => value.text

end Subject

inductive Event where
  | vetoed (target : Component) (veto : Pattern)
  | matched (pattern : Pattern) (target : Component) (result : Option Bindings)
  | mixtureMissed (pattern : MixturePattern) (target : Mixture)
  | mixtureMatched (pattern : MixturePattern) (target : Mixture) (bound : Bindings)
      (leftovers : Mixture)
  | turned (rule : Rule) (before after : Subject)
  | normalForm (value : Subject) (passes : Nat)
  | diverged (rule : Option Rule) (state : Subject)
  | loading (path : String)
  | loaded (rules aliases : Nat)
deriving DecidableEq, Repr

namespace Event

def level : Event → Level
  | vetoed .. | matched .. | mixtureMissed .. | mixtureMatched .. => .trace
  | turned .. | normalForm .. | loading .. | loaded .. => .debug
  | diverged .. => .warn

/-- The text of the rule a divergence is blamed on. -/
def blame (rule : Option Rule) : String :=
  match rule with
  | none => "<none>"
  | some rule => rule.text

def quote (s : String) : String :=
  "'" ++ s ++ "'"

def message : Event → String
  | vetoed target veto =>
    quote target.text ++ " vetoed by " ++ quote (vetoMark ++ " " ++ veto.text)
  | matched pattern target result =>
    "match " ++ quote pattern.text ++ " against " ++ quote target.text ++ ": " ++
      (match result with
        | none => "no match"
        | some bound => Bindings.text bound)
  | mixtureMissed pattern target =>
    "mixture " ++ quote pattern.text ++ " does not match " ++ quote target.text
  | mixtureMatched pattern target bound leftovers =>
    "mixture " ++ quote pattern.text ++ " matched " ++ quote target.text ++ " with " ++
      Bindings.text bound ++ ", leftovers " ++ quote leftovers.text
  | turned rule before after =>
    "rule " ++ quote rule.text ++ " turned " ++ quote before.text ++ " into " ++ quote after.text
  | normalForm value passes =>
    "normal form " ++ quote value.text ++ " after " ++ toString passes ++ " pass(es)"
  | diverged rule state =>
    "reduction diverged at rule " ++ quote (blame rule) ++ " with state " ++ quote state.text
  | loading path => "loading rules from " ++ path
  | loaded rules aliases =>
    toString rules ++ " rule(s), " ++ toString aliases ++ " alias(es)"

end Event

end Simmer
