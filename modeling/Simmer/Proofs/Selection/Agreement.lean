import Simmer.Proofs.Roster
import Simmer.Proofs.Selection.Least

/-!
Selections whose state is a roster. Every demand finds a roster in the member it takes, and
the state absorbs what is found as long as it agrees with it. Such a selection is carried to
its end exactly when all that is found is coherent, and its last state gathers all of it. Over
positions, the search finds the least choice whose finds are coherent.
-/
namespace Simmer.Selection

variable {α δ γ ρ : Type}

/-- What the demands find in the members that stand at their places. -/
structure Meets (find : δ → γ → Option ρ) (demands : List δ) (xs : List γ) (found : List ρ) :
    Prop where
  length_members : xs.length = demands.length
  length_found : found.length = demands.length
  found_at : ∀ (k : Nat) demand x, demands[k]? = some demand → xs[k]? = some x →
    find demand x = found[k]?

theorem meets_nil {find : δ → γ → Option ρ} {xs : List γ} {found : List ρ} :
    Meets find [] xs found ↔ xs = [] ∧ found = [] := by
  constructor
  · intro h
    exact ⟨List.eq_nil_of_length_eq_zero h.length_members,
      List.eq_nil_of_length_eq_zero h.length_found⟩
  · intro h
    obtain ⟨rfl, rfl⟩ := h
    exact ⟨rfl, rfl, by simp⟩

theorem meets_cons {find : δ → γ → Option ρ} {demand : δ} {demands : List δ} {x : γ}
    {xs : List γ} {found : List ρ} :
    Meets find (demand :: demands) (x :: xs) found ↔
      ∃ r rs, found = r :: rs ∧ find demand x = some r ∧ Meets find demands xs rs := by
  constructor
  · intro h
    obtain ⟨hxs, hfound, hat⟩ := h
    cases found with
    | nil => simp at hfound
    | cons r rs =>
      refine ⟨r, rs, rfl, hat 0 demand x rfl rfl, by simpa using hxs, by simpa using hfound, ?_⟩
      intro k d y hd hy
      exact hat (k + 1) d y hd hy
  · intro h
    obtain ⟨r, rs, rfl, hr, hxs, hrs, hat⟩ := h
    refine ⟨by simp [hxs], by simp [hrs], fun k d y hd hy => ?_⟩
    cases k with
    | zero =>
      obtain rfl : demand = d := Option.some.inj hd
      obtain rfl : x = y := Option.some.inj hy
      exact hr
    | succ k => exact hat k d y hd hy

variable [DecidableEq α]

/-- Absorb what a demand finds, if anything is found and agrees. -/
def absorbFound (find : δ → γ → Option (Roster α)) (bound : Roster α) (demand : δ) (x : γ) :
    Option (Roster α) :=
  (find demand x).bind fun found =>
    if bound.agrees found then some (bound.absorb found) else none

variable {find : δ → γ → Option (Roster α)}

/-- The selection is carried on exactly when all that is found is coherent, and then the
last roster gathers it behind what the first one gathered. -/
theorem carry_absorbFound_iff {demands : List δ} {xs : List γ} {start final : Roster α}
    {es : List (String × α)} (hstart : start.Gathers es) :
    carry (absorbFound find) demands xs start = some final ↔
      ∃ found, Meets find demands xs found ∧
        Roster.Coherent (es ++ found.flatMap Roster.entries) ∧
        final.Gathers (es ++ found.flatMap Roster.entries) := by
  induction demands generalizing xs start es with
  | nil =>
    cases xs with
    | nil =>
      simp only [carry, Option.some.injEq, meets_nil, true_and, exists_eq_left,
        List.flatMap_nil, List.append_nil]
      constructor
      · intro heq
        subst heq
        exact ⟨hstart.coherent, hstart⟩
      · intro h
        obtain ⟨-, hfinal⟩ := h
        exact hstart.unique hfinal
    | cons x xs => simp [carry, meets_nil]
  | cons demand demands ih =>
    cases xs with
    | nil =>
      simp only [carry, reduceCtorEq, false_iff, not_exists, not_and]
      intro found hmeets
      simpa using hmeets.length_members
    | cons x xs =>
      simp only [carry, Option.bind_eq_some_iff, meets_cons]
      constructor
      · intro h
        obtain ⟨next, hnext, hcarry⟩ := h
        obtain ⟨r, hr, hjoin⟩ := Option.bind_eq_some_iff.mp hnext
        split at hjoin
        · rename_i hagrees
          obtain rfl := Option.some.inj hjoin
          have hcoherent := (hstart.agrees_iff_coherent r).mp hagrees
          obtain ⟨rs, hrs, hall, hfinal⟩ := (ih (hstart.absorb hcoherent)).mp hcarry
          rw [List.append_assoc] at hall hfinal
          exact ⟨r :: rs, ⟨r, rs, rfl, hr, hrs⟩, hall, hfinal⟩
        · simp at hjoin
      · intro h
        obtain ⟨_, ⟨r, rs, rfl, hr, hrs⟩, hall, hfinal⟩ := h
        rw [List.flatMap_cons, ← List.append_assoc] at hall hfinal
        have hcoherent : Roster.Coherent (es ++ r.entries) :=
          hall.mono (List.subset_append_left _ _)
        have hagrees := (hstart.agrees_iff_coherent r).mpr hcoherent
        refine ⟨start.absorb r, ?_, (ih (hstart.absorb hcoherent)).mpr ⟨rs, hrs, hall, hfinal⟩⟩
        simp [absorbFound, hr, hagrees]

/-- Positions below a bound, one for each demand and each taken once, at which the demands find
what is coherent. -/
structure Fitting (s : Strictness) (find : δ → Nat → Option (Roster α)) (demands : List δ)
    (size : Nat) (ps : List Nat) (found : List (Roster α)) : Prop where
  injective : ps.Nodup
  in_range : ∀ i ∈ ps, i < size
  increasing : s = .ordered → ps.Pairwise (· < ·)
  consecutive : s = .contiguous → ps.IsChain fun i j => j = i + 1
  meets : Meets find demands ps found
  coherent : Roster.Coherent (found.flatMap Roster.entries)

section fitting

variable {s : Strictness} {find : δ → Nat → Option (Roster α)} {demands : List δ} {size : Nat}
variable {ps : List Nat} {final : Roster α}

/-- A choice of the search fits, and its state gathers what is found. -/
theorem selects_absorbFound_iff :
    Selects s (absorbFound find) true demands (List.range size) .empty ps final ↔
      ∃ found, Fitting s find demands size ps found ∧
        final.Gathers (found.flatMap Roster.entries) := by
  constructor
  · intro h
    obtain ⟨hnodup, hrange, hordered, hcontiguous⟩ :=
      (Strictness.allows_range_iff _ _ _).mp h.allowed
    obtain ⟨found, hmeets, hcoherent, hfinal⟩ :=
      (carry_absorbFound_iff Roster.gathers_empty).mp h.carried
    exact ⟨found, ⟨hnodup, hrange, hordered, hcontiguous, hmeets, hcoherent⟩, hfinal⟩
  · intro h
    obtain ⟨found, hfits, hfinal⟩ := h
    refine ⟨(Strictness.allows_range_iff _ _ _).mpr
      ⟨hfits.injective, hfits.in_range, hfits.increasing, hfits.consecutive⟩, ?_⟩
    exact (carry_absorbFound_iff Roster.gathers_empty).mpr
      ⟨found, hfits.meets, hfits.coherent, hfinal⟩

theorem exists_selects_iff_exists_fitting :
    (∃ last, Selects s (absorbFound find) true demands (List.range size) .empty ps last) ↔
      ∃ found, Fitting s find demands size ps found := by
  simp only [selects_absorbFound_iff]
  constructor
  · intro h
    obtain ⟨last, found, hfits, -⟩ := h
    exact ⟨found, hfits⟩
  · intro h
    obtain ⟨found, hfits⟩ := h
    obtain ⟨last, hlast⟩ := Roster.exists_gathers hfits.coherent
    exact ⟨last, found, hfits, hlast⟩

/-- The search finds the least positions that fit, and gathers what is found there. -/
theorem find?_absorbFound_eq_some_iff :
    find? s (absorbFound find) true demands (List.range size) .empty = some (ps, final) ↔
      Least (fun qs => ∃ found, Fitting s find demands size qs found) ps ∧
        ∃ found, Fitting s find demands size ps found ∧
          final.Gathers (found.flatMap Roster.entries) := by
  have hfits : (fun qs => ∃ last,
      Selects s (absorbFound find) true demands (List.range size) .empty qs last) =
        fun qs => ∃ found, Fitting s find demands size qs found :=
    funext fun qs => propext exists_selects_iff_exists_fitting
  rw [find?_eq_some_iff List.pairwise_lt_range, hfits, selects_absorbFound_iff]

theorem find?_absorbFound_eq_none_iff :
    find? s (absorbFound find) true demands (List.range size) .empty = none ↔
      ¬ ∃ ps found, Fitting s find demands size ps found := by
  rw [find?_eq_none_iff List.pairwise_lt_range]
  simp only [← exists_selects_iff_exists_fitting, not_exists]

end fitting

end Simmer.Selection
