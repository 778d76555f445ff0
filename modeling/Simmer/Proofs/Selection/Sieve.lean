import Simmer.Proofs.Selection.Least
import Mathlib.Data.List.Perm.Basic

/-!
What a selection takes of a list, and what it leaves. A sieve lets the members at some positions
through, in their order; two sieves that complement each other share the list out. When the
members taken are everywhere the first of their value, what is left is the list with these
values taken out of it one by one.
-/
namespace Simmer.Selection

variable {α : Type}

/-- The members at the positions that are kept, in their order. -/
def sieve (keep : Nat → Bool) (xs : List α) : List α :=
  (xs.zipIdx.filter fun x => keep x.2).map Prod.fst

/-- The members at the positions that are not listed. -/
def others (ps : List Nat) (xs : List α) : List α :=
  sieve (fun i => !ps.contains i) xs

section sieve

variable {keep keep' : Nat → Bool} {xs ys : List α}

@[simp]
theorem sieve_nil (keep : Nat → Bool) : sieve keep ([] : List α) = [] := rfl

theorem sieve_append (keep : Nat → Bool) (xs ys : List α) :
    sieve keep (xs ++ ys) = sieve keep xs ++ sieve (fun i => keep (xs.length + i)) ys := by
  have hshift : ys.zipIdx xs.length = ys.zipIdx.map fun y => (y.1, xs.length + y.2) := by
    rw [List.zipIdx_eq_map_add]
  unfold sieve
  rw [List.zipIdx_append, Nat.zero_add, hshift, List.filter_append, List.map_append,
    List.filter_map, List.map_map]
  rfl

theorem sieve_cons (keep : Nat → Bool) (x : α) (xs : List α) :
    sieve keep (x :: xs) =
      (if keep 0 = true then [x] else []) ++ sieve (fun i => keep (i + 1)) xs := by
  rw [← List.singleton_append, sieve_append]
  congr 1
  · cases hkeep : keep 0 <;> simp [sieve, hkeep]
  · simp only [List.length_singleton, Nat.add_comm]

theorem sieve_eq_map_range (keep : Nat → Bool) (xs : List α) (default : α) :
    sieve keep xs = ((List.range xs.length).filter keep).map fun i => xs.getD i default := by
  rw [sieve, zipIdx_eq_map_range xs default, List.filter_map, List.map_map]
  rfl

/-- A sieve asks for positions that are there. -/
theorem sieve_congr (h : ∀ i < xs.length, keep i = keep' i) : sieve keep xs = sieve keep' xs := by
  cases xs with
  | nil => rfl
  | cons x xs =>
    rw [sieve_eq_map_range keep (x :: xs) x, sieve_eq_map_range keep' (x :: xs) x,
      List.filter_congr fun i hi => h i (List.mem_range.mp hi)]

theorem sieve_eq_self (h : ∀ i < xs.length, keep i = true) : sieve keep xs = xs := by
  have hall : sieve keep xs = sieve (fun _ => true) xs := sieve_congr h
  rw [hall]
  simp [sieve]

theorem sieve_eq_nil (h : ∀ i < xs.length, keep i = false) : sieve keep xs = [] := by
  have hall : sieve keep xs = sieve (fun _ => false) xs := sieve_congr h
  rw [hall]
  simp [sieve]

/-- What one sieve lets through and what the other one does make up the list. -/
theorem perm_sieve (keep : Nat → Bool) (xs : List α) :
    (sieve keep xs ++ sieve (fun i => !keep i) xs).Perm xs := by
  have hshare := (List.filter_append_perm (fun x : α × Nat => keep x.2) xs.zipIdx).map Prod.fst
  rwa [List.map_append, List.zipIdx_map_fst] at hshare

theorem mem_sieve {x : α} : x ∈ sieve keep xs ↔ ∃ i, keep i = true ∧ xs[i]? = some x := by
  simp [sieve, List.mem_filter, List.mem_zipIdx_iff_getElem?, and_comm]

end sieve

section taken

variable {ps : List Nat} {xs : List α}

/-- Members taken at different positions are what a sieve lets through there. -/
theorem perm_sieve_contains (default : α) (hps : ps.Nodup) (hrange : ∀ i ∈ ps, i < xs.length) :
    (ps.map fun i => xs.getD i default).Perm (sieve ps.contains xs) := by
  have hpositions : ps.Perm ((List.range xs.length).filter ps.contains) := by
    rw [List.perm_ext_iff_of_nodup hps (List.nodup_range.filter _)]
    intro i
    simp only [List.mem_filter, List.mem_range, List.contains_iff_mem]
    exact ⟨fun hi => ⟨hrange i hi, hi⟩, And.right⟩
  rw [sieve_eq_map_range _ _ default]
  exact hpositions.map _

/-- What is taken and what is left make up the list. -/
theorem perm_taken_others (default : α) (hps : ps.Nodup) (hrange : ∀ i ∈ ps, i < xs.length) :
    ((ps.map fun i => xs.getD i default) ++ others ps xs).Perm xs :=
  ((perm_sieve_contains default hps hrange).append_right _).trans (perm_sieve ps.contains xs)

/-- Taking one member leaves the list without it. -/
theorem others_singleton (i : Nat) (xs : List α) : others [i] xs = xs.eraseIdx i := by
  induction xs generalizing i with
  | nil => rfl
  | cons x xs ih =>
    rw [others, sieve_cons]
    cases i with
    | zero =>
      rw [sieve_eq_self fun j _ => by simp]
      simp
    | succ i =>
      rw [List.eraseIdx_cons_succ, ← ih i, others]
      simp

/-- Taking the members from some position on leaves the front. -/
theorem others_run (front back : List α) :
    others (List.range' front.length back.length) (front ++ back) = front := by
  rw [others, sieve_append, sieve_eq_self, sieve_eq_nil, List.append_nil]
  · intro i hi
    simp [hi]
  · intro i hi
    simp [hi]

theorem map_getD_run (front back : List α) (default : α) :
    ((List.range' front.length back.length).map fun i => (front ++ back).getD i default) =
      back := by
  apply List.ext_getElem (by simp)
  intro k _ hk
  simp [hk]

/-- Positions in a row that end with the last one take the end of the list. -/
theorem exists_cut_of_run {i : Nat} (hrow : ps.IsChain fun i j => j = i + 1)
    (hi : ps.getLast? = some i) (hlast : i + 1 = xs.length) :
    ∃ front back, xs = front ++ back ∧ ps = List.range' front.length back.length := by
  cases ps with
  | nil => cases hi
  | cons p ps =>
    have hrun := Strictness.eq_range'_of_consecutive p ps hrow
    rw [hrun, List.getLast?_range', if_neg (Nat.succ_ne_zero _), Option.some.injEq] at hi
    refine ⟨xs.take p, xs.drop p, (List.take_append_drop p xs).symm, ?_⟩
    rw [hrun, List.length_take, List.length_drop]
    congr 1 <;> omega

/-- What is left when the last member is taken along with some in front of it. -/
theorem others_concat (ps : List Nat) (xs : List α) (x : α) :
    others (ps ++ [xs.length]) (xs ++ [x]) = others ps xs := by
  have hlast : sieve (fun i => !(ps ++ [xs.length]).contains (xs.length + i)) [x] = [] :=
    sieve_eq_nil fun i hi => by simp_all
  rw [others, sieve_append, hlast, List.append_nil]
  apply sieve_congr
  intro i hi
  simp [Nat.ne_of_lt hi]

end taken

/-- When every member that is used is the first of its value that is left, what is not used is
the list without the values used. -/
theorem sieve_eq_diff [BEq α] [LawfulBEq α] {used : Nat → Bool} {xs values : List α}
    (hvalues : (sieve used xs).Perm values)
    (hfirst : ∀ i j x, i < j → xs[i]? = some x → xs[j]? = some x → used j = true →
      used i = true) :
    sieve (fun i => !used i) xs = xs.diff values := by
  induction xs generalizing used values with
  | nil => simp
  | cons x xs ih =>
    have hbehind : ∀ i j y, i < j → xs[i]? = some y → xs[j]? = some y → used (j + 1) = true →
        used (i + 1) = true := fun i j y hij hi hj =>
      hfirst (i + 1) (j + 1) y (Nat.succ_lt_succ hij) hi hj
    rw [sieve_cons] at hvalues ⊢
    cases hused : used 0 with
    | true =>
      rw [hused, if_pos rfl, List.singleton_append, List.cons_perm_iff_perm_erase] at hvalues
      obtain ⟨hx, hrest⟩ := hvalues
      rw [List.cons_diff_of_mem hx, ← ih hrest hbehind]
      simp
    | false =>
      rw [hused, if_neg Bool.false_ne_true, List.nil_append] at hvalues
      -- a later member of this value would be used before this one
      have hx : x ∉ values := by
        intro hmem
        obtain ⟨j, hj, hget⟩ := mem_sieve.mp (hvalues.mem_iff.mpr hmem)
        have hzero := hfirst 0 (j + 1) x (Nat.succ_pos j) rfl hget hj
        rw [hused] at hzero
        cases hzero
      rw [List.cons_diff_of_not_mem hx, ← ih hvalues hbehind]
      simp

end Simmer.Selection
