/-!
Selections: one member of a pool for each of a list of demands, found by depth-first search.
Strictness says which members a demand may take. A search keeps one state, which attempts
change; an attempt that fails takes its changes back before the next one begins.
-/
namespace Simmer

inductive Strictness where
  | loose
  | ordered
  | contiguous
deriving DecidableEq, Repr

namespace Strictness

def marker : Strictness → String
  | loose => ""
  | ordered => "&"
  | contiguous => "&&"

def ofMarker? (word : String) : Option Strictness :=
  if word = "&" then some ordered else if word = "&&" then some contiguous else none

variable {γ : Type}

/-- The members that a demand may take; once a contiguous run has begun, only the next one. -/
def window (s : Strictness) (first : Bool) (pool : List γ) : List γ :=
  if s = contiguous ∧ first = false then pool.take 1 else pool

end Strictness

namespace Selection

variable {σ γ ρ : Type}

/-- Attempts at the members of a list, one after the other, until one has a result. Each finds
the state as the one before it left it. -/
@[specialize]
def attempts {m : Type → Type} [Monad m] (attempt : γ → σ → m (Option ρ × σ)) :
    List γ → σ → m (Option ρ × σ)
  | [], state => pure (none, state)
  | x :: xs, state => do
    match ← attempt x state with
    | (some result, state) => pure (some result, state)
    | (none, state) => attempts attempt xs state

end Selection

end Simmer
