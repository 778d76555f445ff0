import Simmer.Json.Value

/-!
What is asked of a library for JSON: words, names out of a choice and records are read from the
front of a text and written at a depth of indentation, and whole texts are read and written by
means of these. `standard` is the library that is at hand.
-/
namespace Simmer.Json

/-- Gives the text of a value that stands within so many records. -/
abbrev Writer := Nat → List Char

structure Library where
  readWord : Reader UInt64
  readOneOf : {α : Type} → List (String × α) → Reader α
  readRecord : {σ : Type} → List (Field σ) → σ → Reader σ
  readText : {α : Type} → Reader α → String → Except Flaw α
  writeWord : UInt64 → Writer
  writeName : String → Writer
  writeRecord : List (String × Writer) → Writer
  writeText : Writer → String

def quoted (w : List Char) : List Char :=
  '"' :: (w ++ ['"'])

/-- A line end and the indentation within so many records. -/
def newLine (depth : Nat) : List Char :=
  '\n' :: List.replicate (2 * depth) ' '

/-- The members of an object up to its closing brace, each on a line of its own. -/
def writeMembers (depth : Nat) : Bool → List (String × Writer) → List Char
  | _, [] => newLine depth ++ ['\x7d']
  | first, (name, value) :: members =>
    (if first then [] else [',']) ++ newLine (depth + 1) ++ quoted name.toList ++
      ':' :: ' ' :: (value (depth + 1) ++ writeMembers depth false members)

def writeRecord (members : List (String × Writer)) : Writer := fun depth =>
  if members.isEmpty then ['\x7b', '\x7d'] else '\x7b' :: writeMembers depth true members

/-- Names are written as they are, which is right for those without quotes, backslashes and
control characters. -/
def standard : Library where
  readWord := Json.readWord
  readOneOf := Json.readOneOf
  readRecord := Json.readRecord
  readText := readAll
  writeWord n _ := Nat.toDigits 10 n.toNat
  writeName name _ := quoted name.toList
  writeRecord := Json.writeRecord
  writeText value := String.ofList (value 0)

end Simmer.Json
