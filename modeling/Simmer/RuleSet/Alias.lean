import Simmer.Fault
import Simmer.Text.Blank
import Simmer.Text.Cut

/-!
Tag aliases, written `tag : member, member`. An alias puts its tag on each of its members.
-/
namespace Simmer

structure TagAlias where
  tag : String
  members : List String
deriving DecidableEq, Repr

namespace TagAlias

def text (a : TagAlias) : String :=
  a.tag ++ " : " ++ ", ".intercalate a.members

/-- The tag stands before the first colon; the tag and all members are single words. -/
def parse (text : String) : Except Fault TagAlias :=
  match Text.cutAt ':' text.toList with
  | none => .error (.invalidRule text .missingColon)
  | some (before, after) =>
    let tag := Text.trim before
    let members := (Text.piecesAt ',' after).map Text.trim
    if !Text.isWord tag then .error (.invalidRule text .badAliasTag)
    else if !members.all Text.isWord then .error (.invalidRule text .badAliasMember)
    else .ok ⟨String.ofList tag, members.map String.ofList⟩

end TagAlias

end Simmer
