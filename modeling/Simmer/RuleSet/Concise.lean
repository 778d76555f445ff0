import Simmer.Rule.Reader

/-!
Concise rules. `a + b = r` says that modifiers `a` and `b` together, in front of any base,
become `r`; `a +> b = r` asks for them in this order. A concise rule is short for a component
rule with a collector for the other modifiers and a variable for the base, which take the
first indices above those that the line uses.
-/
namespace Simmer

structure ConciseRule where
  ordered : Bool
  parts : List String
  result : List String
deriving DecidableEq, Repr

namespace ConciseRule

/-- The texts between the joins, and whether these are `+>`. -/
def splitParts (line : String) (lhs : List Char) : Except Fault (Bool × List (List Char)) :=
  let pieces := Text.piecesAtPair '+' '>' lhs
  if pieces.length ≤ 1 then .ok (false, Text.piecesAt '+' lhs)
  else if pieces.any fun piece => piece.contains '+' then .error (.invalidRule line .mixedJoins)
  else .ok (true, pieces)

def parse (line : String) : Except Fault ConciseRule :=
  match Text.cutAt '=' line.toList with
  | none => .error (.invalidRule line .missingEquals)
  | some (lhs, rhs) =>
    if Text.wordsOf rhs = [] ∨ '=' ∈ rhs then .error (.invalidRule line .badResult)
    else do
      let (ordered, pieces) ← splitParts line lhs
      let parts := pieces.map Text.trim
      if parts.all Text.isWord then
        .ok ⟨ordered, parts.map String.ofList, (Text.wordsOf rhs).map String.ofList⟩
      else .error (.invalidRule line .badIngredient)

/-- Indices of this size and above are not counted. -/
def indexBound : Nat := 18446744073709551616

/-- The index of a variable of the class, if it is counted. -/
def index? (cls : VariableClass) : Token → Option Nat
  | .constant _ => none
  | .var found digits _ =>
    let index := Nat.ofDigitChars 10 digits.toList 0
    if found = cls ∧ index < indexBound then some index else none

/-- The next index. Indices are words of 64 bits that wrap, so the greatest is followed by 0;
where sums are checked, a line with the greatest index has no expansion at all. -/
def nextIndex (index : Nat) : Nat :=
  (index + 1) % indexBound

/-- The first index above all that the tokens use for the class, and at least 1. -/
def freshIndex (cls : VariableClass) (tokens : List Token) : Nat :=
  (tokens.filterMap (index? cls)).foldl (fun fresh index => max fresh (nextIndex index)) 1

/-- The words of the component rule, given its collector and its base variable. -/
def expansion (r : ConciseRule) (collector ingredient : String) : List String × List String :=
  let marker := if r.ordered then [Strictness.ordered.marker] else []
  (collector :: marker ++ r.parts ++ [ingredient], r.result ++ [collector, ingredient])

/-- The component rule a concise rule stands for. Its words are read as any rule is, so a part
may also be a marker or a veto mark. -/
def expand (r : ConciseRule) : Except Fault ComponentRule := do
  let tokens ← (r.parts ++ r.result).mapM Token.parse
  let collector := "o" ++ toString (freshIndex .collector tokens)
  let ingredient := "i" ++ toString (freshIndex .ingredient tokens)
  let (lhs, rhs) := r.expansion collector ingredient
  ComponentRule.parse (Text.unwords lhs ++ " -> " ++ Text.unwords rhs)

end ConciseRule

end Simmer
