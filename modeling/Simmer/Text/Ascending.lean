/-!
Lists of names as sets in ascending order, by code point. Two lists with the same members
have the same ascending form.
-/
namespace Simmer.Text

def precedes (a b : String) : Bool :=
  (compare a b).isLE

/-- The members of a list, each once, in ascending order. -/
def ascending (names : List String) : List String :=
  names.eraseDups.mergeSort precedes

theorem mem_ascending {name : String} {names : List String} :
    name ∈ ascending names ↔ name ∈ names := by
  simp [ascending, List.mem_mergeSort]

end Simmer.Text
