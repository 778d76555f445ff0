import Simmer.Proofs.Selection.Agreement
import Mathlib.Data.List.Perm.Basic
import Mathlib.Data.List.Perm.Subperm

/-!
Loose selections without their order. A loose selection is carried to its end when members of
the pool, none of them taken more often than it is there, meet the demands and what is found
is coherent. Neither condition looks at the order of the pool, and the members can be put in
the order of the demands, so whether there is a selection depends on both as multisets only.
-/
namespace Simmer.Selection

variable {α δ γ ρ : Type}

/-- The first of several demands meets the first member. -/
theorem Meets.exists_cons {find : δ → γ → Option ρ} {demand : δ} {demands : List δ}
    {xs : List γ} {found : List ρ} (h : Meets find (demand :: demands) xs found) :
    ∃ x ys r rs, xs = x :: ys ∧ found = r :: rs ∧ find demand x = some r ∧
      Meets find demands ys rs := by
  cases xs with
  | nil => simpa using h.length_members
  | cons x ys =>
    obtain ⟨r, rs, hfound, hr, hrest⟩ := meets_cons.mp h
    exact ⟨x, ys, r, rs, rfl, hfound, hr, hrest⟩

/-- Demands in another order meet the same members in that order, and find the same. -/
theorem Meets.of_perm {find : δ → γ → Option ρ} {demands demands' : List δ} {xs : List γ}
    {found : List ρ} (hperm : demands.Perm demands') (h : Meets find demands xs found) :
    ∃ xs' found', xs'.Perm xs ∧ found'.Perm found ∧ Meets find demands' xs' found' := by
  induction hperm generalizing xs found with
  | nil => exact ⟨xs, found, .refl xs, .refl found, h⟩
  | cons demand _ ih =>
    obtain ⟨x, ys, r, rs, rfl, rfl, hr, hrest⟩ := h.exists_cons
    obtain ⟨ys', rs', hys, hrs, hmeets⟩ := ih hrest
    exact ⟨x :: ys', r :: rs', hys.cons x, hrs.cons r,
      meets_cons.mpr ⟨r, rs', rfl, hr, hmeets⟩⟩
  | swap demand other demands =>
    obtain ⟨x, ys, r, rs, rfl, rfl, hr, hrest⟩ := h.exists_cons
    obtain ⟨y, zs, t, ts, rfl, rfl, ht, hothers⟩ := hrest.exists_cons
    refine ⟨y :: x :: zs, t :: r :: ts, .swap x y zs, .swap r t ts, ?_⟩
    exact meets_cons.mpr ⟨t, _, rfl, ht, meets_cons.mpr ⟨r, ts, rfl, hr, hothers⟩⟩
  | trans _ _ ih ih' =>
    obtain ⟨ys, rs, hys, hrs, hmiddle⟩ := ih h
    obtain ⟨zs, ts, hzs, hts, hmeets⟩ := ih' hmiddle
    exact ⟨zs, ts, hzs.trans hys, hts.trans hrs, hmeets⟩

/-- To meet images is to meet what they are images of. -/
theorem meets_map_iff {ι : Type} {find : δ → γ → Option ρ} {g : ι → γ} {demands : List δ}
    {ps : List ι} {found : List ρ} :
    Meets find demands (ps.map g) found ↔
      Meets (fun demand i => find demand (g i)) demands ps found := by
  constructor
  · intro h
    refine ⟨by simpa using h.length_members, h.length_found, fun k demand i hk hi => ?_⟩
    exact h.found_at k demand (g i) hk (by rw [List.getElem?_map, hi]; rfl)
  · intro h
    refine ⟨by simpa using h.length_members, h.length_found, fun k demand x hk hx => ?_⟩
    rw [List.getElem?_map, Option.map_eq_some_iff] at hx
    obtain ⟨i, hi, rfl⟩ := hx
    exact h.found_at k demand i hk hi

/-- Members of a pool, each taken at most as often as it is there, stand at positions of which
none is taken twice. -/
theorem subperm_map_range_iff {g : Nat → γ} {size : Nat} {xs : List γ} :
    xs.Subperm ((List.range size).map g) ↔
      ∃ ps : List Nat, ps.Nodup ∧ (∀ i ∈ ps, i < size) ∧ ps.map g = xs := by
  constructor
  · intro h
    obtain ⟨ys, hperm, hsub⟩ := h
    obtain ⟨qs, hqs, rfl⟩ := List.sublist_map_iff.mp hsub
    obtain ⟨ps, rfl, hps⟩ : ∃ ps : List Nat, xs = ps.map g ∧ ps.Perm qs :=
      (congrFun₂ (List.eq_map_comp_perm g) xs qs).mpr hperm.symm
    refine ⟨ps, hps.nodup_iff.mpr (List.nodup_range.sublist hqs), fun i hi => ?_, rfl⟩
    exact List.mem_range.mp (hqs.subset (hps.mem_iff.mp hi))
  · intro h
    obtain ⟨ps, hnodup, hrange, rfl⟩ := h
    have hsub : ps.Subperm (List.range size) :=
      List.subperm_of_subset hnodup fun i hi => List.mem_range.mpr (hrange i hi)
    obtain ⟨qs, hperm, hqs⟩ := hsub
    exact ⟨qs.map g, hperm.map g, hqs.map g⟩

variable {find : δ → γ → Option (Roster α)} {demands demands' : List δ}
variable {g g' : Nat → γ} {size size' : Nat}

/-- Positions fit a loose selection exactly when the members that stand there are taken from
the pool, meet the demands and find what is coherent. -/
theorem exists_fitting_loose_iff :
    (∃ ps found, Fitting .loose (fun demand i => find demand (g i)) demands size ps found) ↔
      ∃ xs found, xs.Subperm ((List.range size).map g) ∧ Meets find demands xs found ∧
        Roster.Coherent (found.flatMap Roster.entries) := by
  constructor
  · intro h
    obtain ⟨ps, found, hfits⟩ := h
    exact ⟨ps.map g, found,
      subperm_map_range_iff.mpr ⟨ps, hfits.injective, hfits.in_range, rfl⟩,
      meets_map_iff.mpr hfits.meets, hfits.coherent⟩
  · intro h
    obtain ⟨xs, found, hsub, hmeets, hcoherent⟩ := h
    obtain ⟨ps, hnodup, hrange, rfl⟩ := subperm_map_range_iff.mp hsub
    exact ⟨ps, found, hnodup, hrange, by simp, by simp, meets_map_iff.mp hmeets, hcoherent⟩

theorem exists_fitting_loose_of_perm (hdemands : demands.Perm demands')
    (hpool : ((List.range size).map g).Perm ((List.range size').map g'))
    (h : ∃ ps found,
      Fitting .loose (fun demand i => find demand (g i)) demands size ps found) :
    ∃ ps found, Fitting .loose (fun demand i => find demand (g' i)) demands' size' ps found := by
  obtain ⟨xs, found, hsub, hmeets, hcoherent⟩ := exists_fitting_loose_iff.mp h
  obtain ⟨xs', found', hxs, hfound, hmeets'⟩ := hmeets.of_perm hdemands
  have hsub' : xs'.Subperm ((List.range size').map g') :=
    hxs.subperm.trans (hsub.trans hpool.subperm)
  have hcoherent' : Roster.Coherent (found'.flatMap Roster.entries) :=
    hcoherent.mono (hfound.flatMap_right Roster.entries).subset
  exact exists_fitting_loose_iff.mpr ⟨xs', found', hsub', hmeets', hcoherent'⟩

/-- Whether anything fits a loose selection does not depend on the order of the demands, nor on
that of the pool. -/
theorem exists_fitting_loose_perm_iff (find : δ → γ → Option (Roster α))
    (hdemands : demands.Perm demands')
    (hpool : ((List.range size).map g).Perm ((List.range size').map g')) :
    (∃ ps found, Fitting .loose (fun demand i => find demand (g i)) demands size ps found) ↔
      ∃ ps found,
        Fitting .loose (fun demand i => find demand (g' i)) demands' size' ps found :=
  ⟨exists_fitting_loose_of_perm hdemands hpool,
    exists_fitting_loose_of_perm hdemands.symm hpool.symm⟩

end Simmer.Selection
