import Simmer.Roster

/-!
Conditions on tags, as they qualify variables: tags joined by `&` or by `|`, negated by `!`
and grouped by parentheses. The tree keeps the parentheses, so `chars` gives back the text
that was read. A condition is consulted from the left and no further than its verdict needs;
`consult` also tells which tags were asked for.
-/
namespace Simmer

inductive Condition where
  | tag (name : String)
  | not (inner : Condition)
  | all (operands : List Condition)
  | any (operands : List Condition)
  | group (inner : Condition)
deriving Repr, Inhabited

namespace Condition

mutual
/-- Equality of trees. -/
def decEq : (a b : Condition) → Decidable (a = b)
  | .tag a, .tag b => if h : a = b then isTrue (by rw [h]) else isFalse (by simpa using h)
  | .not a, .not b =>
    match decEq a b with
    | isTrue h => isTrue (by rw [h])
    | isFalse h => isFalse (by simpa using h)
  | .group a, .group b =>
    match decEq a b with
    | isTrue h => isTrue (by rw [h])
    | isFalse h => isFalse (by simpa using h)
  | .all as, .all bs =>
    match decEqList as bs with
    | isTrue h => isTrue (by rw [h])
    | isFalse h => isFalse (by simpa using h)
  | .any as, .any bs =>
    match decEqList as bs with
    | isTrue h => isTrue (by rw [h])
    | isFalse h => isFalse (by simpa using h)
  | .tag _, .not _ | .tag _, .all _ | .tag _, .any _ | .tag _, .group _
  | .not _, .tag _ | .not _, .all _ | .not _, .any _ | .not _, .group _
  | .all _, .tag _ | .all _, .not _ | .all _, .any _ | .all _, .group _
  | .any _, .tag _ | .any _, .not _ | .any _, .all _ | .any _, .group _
  | .group _, .tag _ | .group _, .not _ | .group _, .all _ | .group _, .any _ =>
    isFalse (by simp)

def decEqList : (as bs : List Condition) → Decidable (as = bs)
  | [], [] => isTrue rfl
  | a :: as, b :: bs =>
    match decEq a b, decEqList as bs with
    | isTrue h, isTrue hs => isTrue (by rw [h, hs])
    | isFalse h, _ => isFalse (by simp [h])
    | _, isFalse hs => isFalse (by simp [hs])
  | [], _ :: _ | _ :: _, [] => isFalse (by simp)
end

instance : DecidableEq Condition := decEq

mutual
def chars : Condition → List Char
  | .tag name => name.toList
  | .not inner => '!' :: inner.chars
  | .all operands => charsJoined '&' operands
  | .any operands => charsJoined '|' operands
  | .group inner => '(' :: (inner.chars ++ [')'])

/-- The operands with `sign` between neighbours. -/
def charsJoined (sign : Char) : List Condition → List Char
  | [] => []
  | [operand] => operand.chars
  | operand :: operands => operand.chars ++ sign :: charsJoined sign operands
end

def text (c : Condition) : String :=
  String.ofList c.chars

mutual
/-- The verdict when `truth` answers for the tags, and the tags asked for, in order. -/
def consult (truth : String → Bool) : Condition → Bool × List String
  | .tag name => (truth name, [name])
  | .not inner =>
    let (verdict, asked) := consult truth inner
    (!verdict, asked)
  | .all operands => consultAll truth operands
  | .any operands => consultAny truth operands
  | .group inner => consult truth inner

/-- Stops at the first operand that does not hold. -/
def consultAll (truth : String → Bool) : List Condition → Bool × List String
  | [] => (true, [])
  | operand :: operands =>
    match consult truth operand with
    | (false, asked) => (false, asked)
    | (true, asked) =>
      let (verdict, more) := consultAll truth operands
      (verdict, asked ++ more)

/-- Stops at the first operand that holds. -/
def consultAny (truth : String → Bool) : List Condition → Bool × List String
  | [] => (false, [])
  | operand :: operands =>
    match consult truth operand with
    | (true, asked) => (true, asked)
    | (false, asked) =>
      let (verdict, more) := consultAny truth operands
      (verdict, asked ++ more)
end

def evaluate (truth : String → Bool) (c : Condition) : Bool :=
  (c.consult truth).1

def asked (truth : String → Bool) (c : Condition) : List String :=
  (c.consult truth).2

def satisfiedBy (tags : List String) (c : Condition) : Bool :=
  c.evaluate fun tag => tags.contains tag

/-- The verdict under the values that are stored for tags; a tag without one does not hold. -/
def evaluateFrom (values : Roster Bool) (c : Condition) : Bool :=
  c.evaluate fun tag => (values.get? tag).getD false

mutual
/-- Every tag of the tree, from left to right, as often as it stands there. -/
def mentions : Condition → List String
  | .tag name => [name]
  | .not inner => mentions inner
  | .all operands => mentionsList operands
  | .any operands => mentionsList operands
  | .group inner => mentions inner

def mentionsList : List Condition → List String
  | [] => []
  | operand :: operands => mentions operand ++ mentionsList operands
end

end Condition

end Simmer
