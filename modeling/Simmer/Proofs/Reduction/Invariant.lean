import Simmer.Proofs.Reduction.Component

/-!
Invariants of reductions. A property that no application of a rule loses is kept when a rule
settles, in every pass and up to the end of a reduction, however long that is. A mixture has
the property when each of its components does, and keeps it through both phases.
-/
namespace Simmer

namespace Rewriting

variable {α κ : Type}

/-- The rules lead from values with the property to such values only. -/
def Keeps (r : Rewriting α κ) (rules : List Rule) (P : α → Prop) : Prop :=
  ∀ rule ∈ rules, ∀ x y, P x → r.Applies rule x y → P y

variable {r : Rewriting α κ} {limit : Nat} {rule : Rule} {rules : List Rule} {x y v : α}
variable {P : α → Prop}

theorem Keeps.mono {others : List Rule} (h : r.Keeps rules P) (hsub : others ⊆ rules) :
    r.Keeps others P :=
  fun rule hrule => h rule (hsub hrule)

theorem Settles.keeps {n : Nat} (h : r.Settles rule x n y)
    (hrule : ∀ x y, P x → r.Applies rule x y → P y) (hx : P x) : P y := by
  induction h with
  | still => exact hx
  | moves happly _ _ ih => exact ih (hrule _ _ hx happly)

theorem Passes.keeps {counts : List Nat} (h : r.Passes rules x counts y)
    (hrules : r.Keeps rules P) (hx : P x) : P y := by
  induction h with
  | nil => exact hx
  | cons hsettles _ ih =>
    obtain ⟨hfirst, hrest⟩ := List.forall_mem_cons.mp hrules
    exact ih hrest (hsettles.keeps hfirst hx)

theorem Reduces.keeps {log : List (List Nat)} (h : r.Reduces rules x log y)
    (hrules : r.Keeps rules P) (hx : P x) : P y := by
  induction h with
  | last hpass _ => exact hpass.keeps hrules hx
  | more hpass _ _ ih => exact ih (hpass.keeps hrules hx)

theorem Keeps.drive [BEq κ] [Hashable κ] [LawfulBEq κ] [LawfulHashable κ]
    (hrules : r.Keeps rules P) (hx : P x)
    (h : (r.drive limit rules x).outcome = .ok v) : P v := by
  obtain ⟨log, hlog, -⟩ := reduces_of_drive h
  exact hlog.keeps hrules hx

end Rewriting

namespace RuleSystem

variable {s : RuleSystem} {P : Component → Prop}

theorem reduceComponent_keeps {c v : Component}
    (hrules : (Rewriting.ofComponents s.oracle).Keeps s.rules P) (hc : P c)
    (h : (s.reduceComponent c).outcome = .ok v) : P v :=
  (hrules.mono (List.filter_subset_self _)).drive hc h

theorem mapM_reduceComponent_keeps {cs ds : List Component}
    (hrules : (Rewriting.ofComponents s.oracle).Keeps s.rules P) (hcs : ∀ c ∈ cs, P c)
    (h : cs.mapM (fun c => (s.reduceComponent c).outcome) = .ok ds) : ∀ d ∈ ds, P d := by
  intro d hd
  obtain ⟨c, hc, hreduced⟩ := Outcome.exists_of_mem_mapM h hd
  exact reduceComponent_keeps hrules (hcs c hc) hreduced

/-- The components keep the property while they are reduced alone, and then together. -/
theorem reduceMixture_keeps {m v : Mixture}
    (hcomponents : (Rewriting.ofComponents s.oracle).Keeps s.rules P)
    (hmixtures : (Rewriting.ofMixtures s.oracle).Keeps s.rules fun m => ∀ c ∈ m.components, P c)
    (hm : ∀ c ∈ m.components, P c) (h : (s.reduceMixture m).outcome = .ok v) :
    ∀ c ∈ v.components, P c := by
  obtain ⟨components, hall, hdrive⟩ := reduceMixture_eq_ok_iff.mp h
  exact hmixtures.drive (mapM_reduceComponent_keeps hcomponents hm hall) hdrive

end RuleSystem

end Simmer
