/-!
What the engine asks about constants: whether a name may stand as the base of a component,
and which tags it carries. The engine decides neither on its own. Tags are a set, so the
order of `tagsOf` and its repetitions mean nothing.
-/
namespace Simmer

structure Oracle where
  isBase : String → Bool
  tagsOf : String → List String

namespace Oracle

def hasTag (o : Oracle) (name tag : String) : Bool :=
  (o.tagsOf name).contains tag

/-- Every constant carries its own name and that name followed by `_tag`; the bases are listed. -/
def plain (bases : List String) : Oracle where
  isBase := bases.contains
  tagsOf name := [name, name ++ "_tag"]

end Oracle

end Simmer
