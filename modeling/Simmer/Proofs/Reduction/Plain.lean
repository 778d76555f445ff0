import Simmer.Reduction

/-!
Reduction without a limit and without a memory of states. A rule settles a value when so many
applications change it and the next one does not; a pass settles every rule in turn; a value
is reduced by passes, up to the first in which nothing changes. The log of a reduction counts
the changes of each rule in each pass.
-/
namespace Simmer.Rewriting

variable {α κ : Type}

/-- One application of the rule ends with the value. -/
def Applies (r : Rewriting α κ) (rule : Rule) (x y : α) : Prop :=
  (r.apply rule x).outcome = .ok y

/-- So many applications of the rule change the value, and the next one does not. -/
inductive Settles (r : Rewriting α κ) (rule : Rule) : α → Nat → α → Prop
  | still {x y : α} : r.Applies rule x y → r.key y = r.key x → Settles r rule x 0 x
  | moves {x y z : α} {n : Nat} : r.Applies rule x y → r.key y ≠ r.key x →
      Settles r rule y n z → Settles r rule x (n + 1) z

/-- Every rule settles the value in turn, with as many changes as the counts say. -/
inductive Passes (r : Rewriting α κ) : List Rule → α → List Nat → α → Prop
  | nil (x : α) : Passes r [] x [] x
  | cons {rule : Rule} {rules : List Rule} {x y z : α} {n : Nat} {counts : List Nat} :
      r.Settles rule x n y → Passes r rules y counts z →
        Passes r (rule :: rules) x (n :: counts) z

/-- No rule has changed anything. -/
def Quiet (counts : List Nat) : Prop :=
  ∀ n ∈ counts, n = 0

/-- Passes follow each other up to the first quiet one. -/
inductive Reduces (r : Rewriting α κ) (rules : List Rule) : α → List (List Nat) → α → Prop
  | last {x y : α} {counts : List Nat} : r.Passes rules x counts y → Quiet counts →
      Reduces r rules x [counts] y
  | more {x y z : α} {counts : List Nat} {log : List (List Nat)} : r.Passes rules x counts y →
      ¬ Quiet counts → Reduces r rules y log z → Reduces r rules x (counts :: log) z

/-- The passes of a log, and the changes of each rule in them, are within the limit. -/
structure Within (limit : Nat) (log : List (List Nat)) : Prop where
  passes_le : log.length ≤ max limit 1
  changes_lt : ∀ counts ∈ log, ∀ n ∈ counts, n < max limit 1

variable {r : Rewriting α κ} {rule : Rule} {rules : List Rule} {x y z : α}

theorem Applies.unique (hy : r.Applies rule x y) (hz : r.Applies rule x z) : y = z :=
  Except.ok.inj (hy.symm.trans hz)

theorem quiet_cons {n : Nat} {counts : List Nat} :
    Quiet (n :: counts) ↔ n = 0 ∧ Quiet counts := by
  simp [Quiet]

namespace Settles

/-- Without changes the value stays. -/
theorem eq_of_zero (h : r.Settles rule x 0 y) : y = x := by
  cases h
  rfl

theorem exists_applies {n : Nat} (h : r.Settles rule x n y) :
    ∃ next, r.Applies rule x next ∧ (n = 0 ↔ r.key next = r.key x) := by
  cases h with
  | still happly hkey => exact ⟨_, happly, by simpa using hkey⟩
  | moves happly hne _ => exact ⟨_, happly, by simpa using hne⟩

end Settles

namespace Passes

/-- In a quiet pass the value stays, and no rule changes it. -/
theorem of_quiet {counts : List Nat} (h : r.Passes rules x counts y) (hquiet : Quiet counts) :
    y = x ∧ ∀ rule ∈ rules, r.Settles rule x 0 x := by
  induction h with
  | nil x => exact ⟨rfl, by simp⟩
  | cons hsettles _ ih =>
    obtain ⟨rfl, hrest⟩ := quiet_cons.mp hquiet
    obtain rfl := hsettles.eq_of_zero
    obtain ⟨rfl, hall⟩ := ih hrest
    exact ⟨rfl, List.forall_mem_cons.mpr ⟨hsettles, hall⟩⟩

end Passes

namespace Reduces

/-- A reduction ends where no rule changes anything. -/
theorem settled {log : List (List Nat)} (h : r.Reduces rules x log y) :
    ∀ rule ∈ rules, r.Settles rule y 0 y := by
  induction h with
  | last hpass hquiet =>
    obtain ⟨rfl, hall⟩ := hpass.of_quiet hquiet
    exact hall
  | more _ _ _ ih => exact ih

end Reduces

end Simmer.Rewriting
