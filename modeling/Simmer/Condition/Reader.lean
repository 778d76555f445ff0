import Simmer.Condition.Basic
import Simmer.Fault
import Simmer.Text.Blank
import Simmer.Text.Ascending

/-!
Reading conditions from left to right:

    expression := operand ('&' operand)* | operand ('|' operand)*
    operand    := '!' operand | '(' expression ')' | tag

One level does not mix `&` with `|`. The readers take a number of nested calls that they may
still make; `budget` allows more of them than a text of its length can need.
-/
namespace Simmer.Condition

inductive Connective where
  | both
  | either
deriving DecidableEq, Repr

namespace Connective

def sign : Connective → Char
  | both => '&'
  | either => '|'

def ofSign? (c : Char) : Option Connective :=
  if c = '&' then some both else if c = '|' then some either else none

def join : Connective → List Condition → Condition
  | both => .all
  | either => .any

end Connective

/-- The characters that no tag holds. -/
def isSpecial (c : Char) : Bool :=
  c == '&' || c == '|' || c == '!' || c == '(' || c == ')' || c == ':'

/-- The tag up to the next special character, which is looked for before blanks are refused. -/
def readTag (cs : List Char) : Except ConditionFlaw (Condition × List Char) :=
  let name := cs.takeWhile (!isSpecial ·)
  if name.any Text.isBlank then .error .blank
  else .ok (.tag (String.ofList name), cs.dropWhile (!isSpecial ·))

mutual
def readExpression : Nat → List Char → Except ConditionFlaw (Condition × List Char)
  | 0, _ => .error .endOfText
  | calls + 1, cs => do
    let (first, rest) ← readOperand calls cs
    match rest.head?.bind Connective.ofSign? with
    | none => .ok (first, rest)
    | some connective =>
      let (others, rest) ← readOthers calls connective rest
      .ok (connective.join (first :: others), rest)

def readOperand : Nat → List Char → Except ConditionFlaw (Condition × List Char)
  | 0, _ => .error .endOfText
  | _, [] => .error .endOfText
  | calls + 1, c :: cs =>
    if c = '!' then do
      let (inner, rest) ← readOperand calls cs
      .ok (.not inner, rest)
    else if c = '(' then do
      let (inner, rest) ← readExpression calls cs
      match rest with
      | ')' :: rest => .ok (.group inner, rest)
      | _ => .error .missingClose
    else if isSpecial c then .error (.expectedTag c)
    else readTag (c :: cs)

/-- The operands after the first, each behind the one connective of its level. -/
def readOthers : Nat → Connective → List Char →
    Except ConditionFlaw (List Condition × List Char)
  | 0, _, _ => .error .endOfText
  | _, _, [] => .ok ([], [])
  | calls + 1, connective, c :: cs =>
    match Connective.ofSign? c with
    | none => .ok ([], c :: cs)
    | some found =>
      if found = connective then do
        let (operand, rest) ← readOperand calls cs
        let (others, rest) ← readOthers calls connective rest
        .ok (operand :: others, rest)
      else .error .mixedConnectives
end

def budget (cs : List Char) : Nat :=
  2 * cs.length + 2

/-- Reads the whole of `cs` as one condition. -/
def read (cs : List Char) : Except ConditionFlaw Condition := do
  let (condition, rest) ← readExpression (budget cs) cs
  match rest with
  | [] => .ok condition
  | c :: _ => .error (if c = ')' then .strayClose else .unexpected c)

def parse (text : String) : Except Fault Condition :=
  (read text.toList).mapError (.invalidCondition text)

/-- The tags of a condition as a set in ascending order. -/
def symbols (c : Condition) : List String :=
  Text.ascending c.mentions

end Simmer.Condition
