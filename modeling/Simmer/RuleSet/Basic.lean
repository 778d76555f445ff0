import Simmer.Rule.Basic
import Simmer.RuleSet.Alias
import Simmer.TagTable

/-!
Rule sets: rules and tag aliases in the order of their definition. The text of a set has one
definition on each line, and the aliases come first.
-/
namespace Simmer

structure RuleSet where
  rules : List Rule
  aliases : List TagAlias
deriving DecidableEq, Repr

namespace RuleSet

def empty : RuleSet := ⟨[], []⟩

def size (s : RuleSet) : Nat :=
  s.rules.length

def isEmpty (s : RuleSet) : Bool :=
  s.rules.isEmpty

def pushRule (s : RuleSet) (rule : Rule) : RuleSet :=
  { s with rules := s.rules ++ [rule] }

def pushAlias (s : RuleSet) (a : TagAlias) : RuleSet :=
  { s with aliases := s.aliases ++ [a] }

/-- The rules and aliases of one set before those of another. -/
def append (s t : RuleSet) : RuleSet :=
  ⟨s.rules ++ t.rules, s.aliases ++ t.aliases⟩

/-- The table with every alias of the set added. -/
def seedTags (s : RuleSet) (table : TagTable) : TagTable :=
  s.aliases.foldl (fun table a => table.addAlias a.tag a.members) table

def text (s : RuleSet) : String :=
  String.join ((s.aliases.map TagAlias.text ++ s.rules.map Rule.text).map (· ++ "\n"))

/-- Equality up to the order of collectors. -/
def same (s t : RuleSet) : Bool :=
  s.size == t.size && ((s.rules.zip t.rules).all fun (a, b) => a.same b) &&
    s.aliases = t.aliases

end RuleSet

end Simmer
