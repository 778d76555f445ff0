import Simmer.Volume.Path

/-!
Files and directories as a value. A place is the list of names on the way down from the root,
and `node?` is what stands there. One place is home, where paths without a slash in front
begin. A path is walked step by step, and every step starts at a directory; `makeWay?` makes
the directories that are missing on the walk.
-/
namespace Simmer

inductive Node where
  | file (content : String)
  | undecodable
  | directory (entries : List (String × Node))

namespace Node

/-- A file by its bytes, which must be UTF-8 to be read as text. -/
def ofBytes (bytes : ByteArray) : Node :=
  match String.fromUTF8? bytes with
  | some content => file content
  | none => undecodable

def text? : Node → Option String
  | file content => some content
  | _ => none

def isDirectory : Node → Bool
  | directory _ => true
  | _ => false

/-- What stands below a node. -/
def below? : List String → Node → Option Node
  | [], node => some node
  | name :: names, directory entries => (entries.lookup name).bind (below? names)
  | _ :: _, _ => none

/-- Put a node below another one, where the way to it is made of directories. -/
def put (new : Node) : List String → Node → Node
  | [], _ => new
  | name :: names, directory entries =>
    let changed := put new names ((entries.lookup name).getD (directory []))
    directory ((name, changed) :: entries.filter (·.1 ≠ name))
  | _ :: _, node => node

end Node

/-- A volume by what stands in its root, and its home. -/
structure Volume where
  entries : List (String × Node)
  home : List String

namespace Volume

def node? (v : Volume) (place : List String) : Option Node :=
  Node.below? place (.directory v.entries)

def isDirectory (v : Volume) (place : List String) : Bool :=
  (v.node? place).any Node.isDirectory

/-- Put a node at a place; the root stays a directory. -/
def put (v : Volume) (place : List String) (node : Node) : Volume :=
  match Node.put node place (.directory v.entries) with
  | .directory entries => ⟨entries, v.home⟩
  | _ => v

/-- A volume with nothing but the way to its home. -/
def opened (home : List String) : Volume :=
  put ⟨[], home⟩ home (.directory [])

/-- The path from the root that a path means. -/
def absolute (v : Volume) (path : String) : String :=
  if Path.isAbsolute path then path else "/" ++ "/".intercalate (v.home ++ [path])

/-- The place to which steps lead from the directory `here`. -/
def locate? (v : Volume) (here : List String) : List Path.Step → Option (List String)
  | [] => some here
  | step :: steps =>
    if v.isDirectory here ∧ step.fits then v.locate? (step.lead here) steps else none

/-- The place of a path. Its last step may lead to a place where nothing stands. -/
def place? (v : Volume) (path : String) : Option (List String) :=
  let whole := v.absolute path
  if Path.isUsable whole then v.locate? [] (Path.steps whole) else none

/-- What stands at a path. -/
def find? (v : Volume) (path : String) : Option Node :=
  (v.place? path).bind v.node?

/-- Make a directory, unless there is one; a file that stands there stops this. -/
def ensure? (v : Volume) (here : List String) : Option Volume :=
  match v.node? here with
  | none => some (v.put here (.directory []))
  | some (.directory _) => some v
  | some _ => none

/-- Make the directories that are missing on the way from `here`. -/
def makeWay? (v : Volume) (here : List String) : List Path.Step → Option Volume
  | [] => v.ensure? here
  | step :: steps =>
    (v.ensure? here).bind fun made =>
      if step.fits then made.makeWay? (step.lead here) steps else none

/-- Make the directories that are missing on a path. -/
def makeDirectories? (v : Volume) (path : String) : Option Volume :=
  let whole := v.absolute path
  if Path.isUsable whole then v.makeWay? [] (Path.steps whole) else none

/-- Write a file whose parent is a directory, over a file that stands there already. Only a
name at the end of a path can be one of a file. -/
def write? (v : Volume) (path content : String) : Option Volume :=
  match (Path.steps path).getLast?, v.place? path with
  | some (.down _), some place =>
    if v.isDirectory place then none else some (v.put place (.file content))
  | _, _ => none

end Volume

end Simmer
