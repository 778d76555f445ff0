import Simmer.Fault
import Simmer.Text.Blank

/-!
Texts joined by `+` outside every pair of parentheses. An element may be wrapped in one pair
of parentheses, which are not part of it and which nothing but the next `+` may follow.
Parentheses nest, so a qualifier such as `i1:!(a|b)` stays inside its element.
-/
namespace Simmer.Groups

/-- How far the element that is being read has come; its text is kept in reverse. -/
inductive Phase where
  | awaiting
  | bare (depth : Nat) (read : List Char)
  | wrapped (depth : Nat) (read : List Char)
  | closed
deriving DecidableEq, Repr

/-- The text of an element without the blanks around it. -/
def element (read : List Char) : List Char :=
  Text.trim read.reverse

/-- The elements from a phase to the end of the text. Depths count the pairs of parentheses
that are open within a bare element, and within the outer pair of a wrapped one. -/
def scan : Phase → List Char → Except PatternFlaw (List (List Char))
  | .awaiting, [] => .error .emptyElement
  | .awaiting, c :: cs =>
    if Text.isBlank c then scan .awaiting cs
    else if c = '(' then scan (.wrapped 0 []) cs
    else if c = ')' then .error .strayClose
    else if c = '+' then .error .emptyElement
    else scan (.bare 0 [c]) cs
  | .bare depth read, [] => if depth = 0 then .ok [element read] else .error .missingClose
  | .bare depth read, c :: cs =>
    if c = '(' then scan (.bare (depth + 1) (c :: read)) cs
    else if c = ')' then
      if depth = 0 then .error .strayClose else scan (.bare (depth - 1) (c :: read)) cs
    else if c = '+' ∧ depth = 0 then do
      let others ← scan .awaiting cs
      .ok (element read :: others)
    else scan (.bare depth (c :: read)) cs
  | .wrapped _ _, [] => .error .missingClose
  | .wrapped depth read, c :: cs =>
    if c = '(' then scan (.wrapped (depth + 1) (c :: read)) cs
    else if c = ')' then
      if depth = 0 then do
        let others ← scan .closed cs
        .ok (element read :: others)
      else scan (.wrapped (depth - 1) (c :: read)) cs
    else scan (.wrapped depth (c :: read)) cs
  | .closed, [] => .ok []
  | .closed, c :: cs =>
    if Text.isBlank c then scan .closed cs
    else if c = '+' then scan .awaiting cs
    else .error .expectedJoin

/-- The elements of a text. Empty parentheses are refused after every other flaw. -/
def split (text : String) : Except Fault (List String) :=
  match scan .awaiting text.toList with
  | .error flaw => .error (.invalidPattern text flaw)
  | .ok elements =>
    if elements.any List.isEmpty then .error (.invalidPattern text .emptyElement)
    else .ok (elements.map String.ofList)

/-- Whether a `+` stands where no more parentheses were opened than closed before it. A
closing one that matches nothing is passed over. -/
def hasOuterJoin : Nat → List Char → Bool
  | _, [] => false
  | depth, c :: cs =>
    if c = '(' then hasOuterJoin (depth + 1) cs
    else if c = ')' then hasOuterJoin (depth - 1) cs
    else if c = '+' ∧ depth = 0 then true
    else hasOuterJoin depth cs

/-- Every text in parentheses, joined by `+`. -/
def write (elements : List String) : String :=
  " + ".intercalate (elements.map fun element => "(" ++ element ++ ")")

end Simmer.Groups
