import Simmer.Condition.Reader
import Simmer.Token.Basic

/-!
Reading tokens. A variable is one of the letters m, i, o, then decimal digits, then perhaps
a colon and a condition; every other text without a colon and without blanks is a constant.
-/
namespace Simmer.Token

/-- The class, the digits, and what follows a colon behind them, if `cs` is a variable. -/
def splitVariable? : List Char → Option (VariableClass × List Char × Option (List Char))
  | [] => none
  | c :: cs =>
    match VariableClass.ofLetter? c, cs.takeWhile Char.isDigit, cs.dropWhile Char.isDigit with
    | none, _, _ => none
    | some _, [], _ => none
    | some cls, d :: ds, [] => some (cls, d :: ds, none)
    | some cls, d :: ds, e :: rest => if e = ':' then some (cls, d :: ds, some rest) else none

def parse (text : String) : Except Fault Token :=
  let cs := text.toList
  if cs = [] then .error (.invalidToken text .empty)
  else if cs.any Text.isBlank then .error (.invalidToken text .blank)
  else
    match splitVariable? cs with
    | none =>
      if ':' ∈ cs then .error (.invalidToken text .strayQualifier) else .ok (.constant text)
    | some (cls, digits, none) => .ok (.var cls (String.ofList digits) none)
    | some (cls, digits, some qualifier) =>
      if qualifier = [] then .error (.invalidToken text .emptyQualifier)
      else
        match Condition.read qualifier with
        | .error flaw => .error (.invalidToken text (.badQualifier flaw))
        | .ok c => .ok (.var cls (String.ofList digits) (some c))

/-- The tokens of a text, which blanks separate. -/
def parseWords (text : String) : Except Fault (List Token) :=
  (Text.words text).mapM parse

/-- What a text is, and the category it has at a position. -/
def classify (oracle : Oracle) (last : Bool) (text : String) : Except Fault (Token × Category) := do
  let t ← parse text
  t.checkSlot last
  .ok (t, t.category oracle last)

end Simmer.Token
