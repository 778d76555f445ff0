import Simmer.RuleSet.Basic
import Simmer.RuleSet.Concise

/-!
Reading rule sets, one definition on a line. A number sign begins a comment. A line with an
arrow is a rule, one with an equals sign a concise rule, one with a colon an alias, looked
for in this order. A fault carries the number of its line, counted from 1.
-/
namespace Simmer

inductive Definition where
  | rule (rule : Rule)
  | tagAlias (tagAlias : TagAlias)
deriving DecidableEq, Repr

namespace Definition

def parse (line : String) : Except Fault Definition :=
  let cs := line.toList
  if (Text.cutAtPair '-' '>' cs).isSome then (Rule.parse line).map .rule
  else if '=' ∈ cs then do
    let concise ← ConciseRule.parse line
    let expanded ← concise.expand
    .ok (.rule (.component expanded))
  else if ':' ∈ cs then (TagAlias.parse line).map .tagAlias
  else .error (.invalidRule line .unknownForm)

/-- What a line defines, once its comment and the blanks around it are gone. -/
def ofLine? (raw : List Char) : Except Fault (Option Definition) :=
  match Text.trim (raw.takeWhile (· ≠ '#')) with
  | [] => .ok none
  | c :: cs => (parse (String.ofList (c :: cs))).map some

end Definition

namespace RuleSet

/-- A definition in front of a set. -/
def cons (d : Option Definition) (s : RuleSet) : RuleSet :=
  match d with
  | none => s
  | some (.rule rule) => { s with rules := rule :: s.rules }
  | some (.tagAlias a) => { s with aliases := a :: s.aliases }

/-- The set that lines define, the first of which has the given number. -/
def ofLines (number : Nat) : List (List Char) → Except Fault RuleSet
  | [] => .ok empty
  | line :: lines => do
    let definition ← (Definition.ofLine? line).mapError (Fault.atLine number)
    let others ← ofLines (number + 1) lines
    .ok (cons definition others)

def parse (text : String) : Except Fault RuleSet :=
  ofLines 1 (Text.lines text)

end RuleSet

end Simmer
