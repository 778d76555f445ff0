import Simmer.Text.Cut

/-!
Paths: pieces with slashes between them, each of which is a step from directory to directory.
An empty piece and a lone point stay, two points lead to the directory above, and every other
piece is a name. A path that begins with a slash starts at the root. Names and whole paths are
bounded in bytes, and a path never holds NUL.
-/
namespace Simmer.Volume.Path

/-- The most bytes of a name. -/
def nameLimit : Nat := 255

/-- The most bytes of a path from the root. -/
def limit : Nat := 4095

inductive Step where
  | stay
  | up
  | down (name : String)
deriving DecidableEq, Repr

namespace Step

def ofPiece (piece : List Char) : Step :=
  if piece = [] ∨ piece = ['.'] then stay
  else if piece = ['.', '.'] then up
  else down (String.ofList piece)

/-- Whether the name of a step, if it has one, may exist. -/
def fits : Step → Bool
  | down name => name.utf8ByteSize ≤ nameLimit
  | _ => true

/-- The place to which a step leads. The root is the directory above itself. -/
def lead (here : List String) : Step → List String
  | stay => here
  | up => here.dropLast
  | down name => here ++ [name]

end Step

def pieces (path : String) : List (List Char) :=
  Text.piecesAt '/' path.toList

def steps (path : String) : List Step :=
  (pieces path).map Step.ofPiece

def isAbsolute (path : String) : Bool :=
  path.toList.head? = some '/'

/-- Whether a path from the root may lead to anything. -/
def isUsable (path : String) : Bool :=
  path.utf8ByteSize ≤ limit && !path.toList.contains '\x00'

def isIdle (piece : List Char) : Bool :=
  Step.ofPiece piece = .stay

/-- The path without its last step that does not stay, as it was written. -/
def parent (path : String) : String :=
  let before := ((pieces path).reverse.dropWhile isIdle).drop 1
  match (before.dropWhile isIdle).reverse with
  | [] => if isAbsolute path then "/" else ""
  | piece :: more => String.ofList (['/'].intercalate (piece :: more))

end Simmer.Volume.Path
