import Simmer.Oracle
import Simmer.Roster
import Simmer.Text.Ascending

/-!
Tables of ingredients and tag aliases. An ingredient carries its own name and the names of
its ancestors, which come already resolved; an alias puts one tag on each of its members.
Registering a name again adds to what is known of it.
-/
namespace Simmer

structure TagTable where
  ancestry : Roster (List String)
  aliases : Roster (List String)
deriving DecidableEq, Repr

namespace TagTable

def empty : TagTable := ⟨.empty, .empty⟩

instance : Inhabited TagTable := ⟨empty⟩

/-- Append to the names stored under `key`. -/
def extend (r : Roster (List String)) (key : String) (more : List String) :
    Roster (List String) :=
  r.update key fun known => known.getD [] ++ more

def addIngredient (t : TagTable) (name : String) (ancestors : List String) : TagTable :=
  { t with ancestry := extend t.ancestry name ancestors }

def addAlias (t : TagTable) (tag : String) (members : List String) : TagTable :=
  { t with aliases := extend t.aliases tag members }

/-- Registered ingredients, in the order of their first registration. -/
def ingredients (t : TagTable) : List String :=
  t.ancestry.names

def isBase (t : TagTable) (name : String) : Bool :=
  t.ancestry.contains name

/-- The alias tags that have `name` among their members. -/
def aliasesOf (t : TagTable) (name : String) : List String :=
  (t.aliases.entries.filter fun (_, members) => members.contains name).map Prod.fst

def tagsOf (t : TagTable) (name : String) : List String :=
  name :: ((t.ancestry.get? name).getD [] ++ t.aliasesOf name)

def oracle (t : TagTable) : Oracle where
  isBase := t.isBase
  tagsOf := t.tagsOf

end TagTable

end Simmer
