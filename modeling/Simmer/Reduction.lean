import Simmer.Rule.Apply
import Std.Data.HashSet

/-!
Driving rules to a normal form. In a pass every rule in turn is applied until an application
changes nothing, and passes go on until one changes nothing. A limit bounds both the changing
applications of one rule and the passes; the first of each always takes place. A state that
comes back ends the reduction as well. States count as equal when their keys are.
-/
namespace Simmer

/-- How values of one kind are rewritten, compared and told of. -/
structure Rewriting (α κ : Type) where
  apply : Rule → α → Run α
  key : α → κ
  subject : α → Subject

namespace Rewriting

variable {α κ : Type} [BEq κ] [Hashable κ]

def diverge {β : Type} (r : Rewriting α κ) (limit : Nat) (rule : Option Rule) (state : α) :
    Run β := do
  Run.tell [.diverged rule (r.subject state)]
  throw (.diverging (Event.blame rule) (r.subject state).text limit)

/-- One application of a rule: the value stays, or comes back after `seen`, or `again` goes on
with what it has become. -/
def step (r : Rewriting α κ) (limit : Nat) (rule : Rule) (moved : Bool) (seen : Std.HashSet κ)
    (value : α) (again : α → Run (α × Bool)) : Run (α × Bool) := do
  let next ← r.apply rule value
  if r.key next == r.key value then pure (value, moved)
  else if seen.contains (r.key value) then r.diverge limit (some rule) next
  else again next

/-- Apply one rule until it changes nothing, with at most so many changes before the one that
exhausts the limit. Also tells whether anything has changed. -/
def settle (r : Rewriting α κ) (limit : Nat) (rule : Rule) :
    Nat → Bool → Std.HashSet κ → α → Run (α × Bool)
  | 0, moved, seen, value => r.step limit rule moved seen value (r.diverge limit (some rule))
  | spare + 1, moved, seen, value =>
    r.step limit rule moved seen value
      (r.settle limit rule spare true (seen.insert (r.key value)))

/-- Settle every rule in turn; the last one that changed something is returned, too. -/
def pass (r : Rewriting α κ) (limit : Nat) : List Rule → α → Run (α × Option Rule)
  | [], value => pure (value, none)
  | rule :: rules, value => do
    let (value, moved) ← r.settle limit rule (limit - 1) false ∅ value
    let (value, later) ← r.pass limit rules value
    pure (value, later <|> if moved then some rule else none)

/-- One pass: the value is normal, or `again` goes on with what it has become. -/
def round (r : Rewriting α κ) (limit : Nat) (rules : List Rule) (done : Nat)
    (seen : Std.HashSet κ) (last : Option Rule) (value : α) (again : Rule → α → Run α) :
    Run α := do
  if seen.contains (r.key value) then r.diverge limit last value
  else
    let (next, changed) ← r.pass limit rules value
    match changed with
    | none =>
      Run.tell [.normalForm (r.subject next) (done + 1)]
      pure next
    | some rule => again rule next

/-- Passes over the rules until one changes nothing, with at most so many changing passes
before the one that exhausts the limit. -/
def passes (r : Rewriting α κ) (limit : Nat) (rules : List Rule) :
    Nat → Nat → Std.HashSet κ → Option Rule → α → Run α
  | 0, done, seen, last, value =>
    r.round limit rules done seen last value fun rule next => r.diverge limit (some rule) next
  | spare + 1, done, seen, last, value =>
    r.round limit rules done seen last value fun rule next =>
      r.passes limit rules spare (done + 1) (seen.insert (r.key value)) (some rule) next

def drive (r : Rewriting α κ) (limit : Nat) (rules : List Rule) (start : α) : Run α :=
  r.passes limit rules (limit - 1) 0 ∅ none start

/-- Components are one state when they are equal. -/
def ofComponents (oracle : Oracle) : Rewriting Component Component where
  apply rule c := rule.applyComponent oracle c
  key := id
  subject := .component

/-- Mixtures are one state when they are the same multiset. -/
def ofMixtures (oracle : Oracle) : Rewriting Mixture (List (List String)) where
  apply rule m := rule.applyMixture oracle m
  key := Mixture.key
  subject := .mixture

end Rewriting

end Simmer
