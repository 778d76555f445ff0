import Simmer.Roster

/-!
What a match binds: one constant to each modifier or ingredient variable, and to each
collector the list of leftovers it keeps. The names stand in the order of their binding.
-/
namespace Simmer

inductive Binding where
  | single (value : String)
  | collected (values : List String)
deriving DecidableEq, Repr

namespace Binding

def text : Binding → String
  | single value => value
  | collected values => "[" ++ ", ".intercalate values ++ "]"

end Binding

abbrev Bindings := Roster Binding

namespace Bindings

def single? (b : Bindings) (name : String) : Option String :=
  match b.get? name with
  | some (.single value) => some value
  | _ => none

def collected? (b : Bindings) (name : String) : Option (List String) :=
  match b.get? name with
  | some (.collected values) => some values
  | _ => none

/-- Bind `name` to `value`, unless it stands for another value already. -/
def bind? (b : Bindings) (name value : String) : Option Bindings :=
  match b.get? name with
  | none => some (b.insert name (.single value))
  | some bound => if bound = .single value then some b else none

def text (b : Bindings) : String :=
  "\x7b" ++ ", ".intercalate (b.entries.map fun (name, bound) => name ++ " = " ++ bound.text) ++
    "\x7d"

end Bindings

end Simmer
