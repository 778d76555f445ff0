import Simmer.Proofs.Selection.Search
import Mathlib.Data.List.InsertIdx
import Mathlib.Data.List.Lex
import Mathlib.Data.List.Nodup
import Mathlib.Data.List.Range
import Mathlib.Data.List.Sort

/-!
What the search selects. A strictness allows a choice of members from a pool, in the order
of the demands; a choice is accepted when the state can be carried along it. Over a pool of
positions in increasing order, the search finds the least accepted choice in the
lexicographic order of positions, and it finds none only when there is none.
-/
namespace Simmer

namespace Strictness

variable {γ : Type}

/-- Which lists of members may be taken, one for each demand, from a pool without
repetitions. `first` tells that a contiguous run has not begun. -/
def Allows (s : Strictness) (first : Bool) (pool chosen : List γ) : Prop :=
  match s with
  | loose => chosen.Nodup ∧ chosen ⊆ pool
  | ordered => chosen.Sublist pool
  | contiguous => if first = true then chosen <:+: pool else chosen <+: pool

theorem allows_nil (s : Strictness) (first : Bool) (pool : List γ) : s.Allows first pool [] := by
  cases s with
  | loose => exact ⟨List.nodup_nil, List.nil_subset pool⟩
  | ordered => exact List.nil_sublist pool
  | contiguous => cases first <;> simp [Allows]

theorem getElem?_of_window {s : Strictness} {first : Bool} {pool : List γ} {i : Nat} {x : γ}
    (h : (s.window first pool)[i]? = some x) : pool[i]? = some x := by
  unfold window at h
  split at h
  · rw [List.getElem?_take] at h
    split at h
    · exact h
    · simp at h
  · exact h

theorem after_sublist (s : Strictness) (i : Nat) (pool : List γ) :
    (s.after i pool).Sublist pool := by
  cases s with
  | loose => exact List.eraseIdx_sublist pool i
  | ordered => exact List.drop_sublist (i + 1) pool
  | contiguous => exact List.drop_sublist (i + 1) pool

/-- In a pool without repetitions, leaving out a position leaves out one member. -/
theorem mem_eraseIdx_iff {pool : List γ} (hpool : pool.Nodup) {i : Nat} {x y : γ}
    (hx : pool[i]? = some x) : y ∈ pool.eraseIdx i ↔ y ∈ pool ∧ y ≠ x := by
  have hi : i < pool.length := (List.getElem?_eq_some_iff.mp hx).1
  rw [List.mem_eraseIdx_iff_getElem?]
  constructor
  · intro h
    obtain ⟨j, hji, hj⟩ := h
    refine ⟨List.mem_of_getElem? hj, ?_⟩
    intro heq
    subst heq
    exact hji ((List.getElem?_inj hi hpool).mp (hx.trans hj.symm)).symm
  · intro h
    obtain ⟨hy, hne⟩ := h
    obtain ⟨j, hj⟩ := List.mem_iff_getElem?.mp hy
    refine ⟨j, ?_, hj⟩
    intro heq
    subst heq
    exact hne (Option.some.inj (hj.symm.trans hx))

private theorem loose_cons {pool : List γ} (hpool : pool.Nodup) {x : γ} {xs : List γ} :
    ((x :: xs).Nodup ∧ x :: xs ⊆ pool) ↔
      ∃ i, pool[i]? = some x ∧ xs.Nodup ∧ xs ⊆ pool.eraseIdx i := by
  rw [List.nodup_cons, List.cons_subset]
  constructor
  · intro h
    obtain ⟨⟨hx, hxs⟩, hmem, hsub⟩ := h
    obtain ⟨i, hi⟩ := List.mem_iff_getElem?.mp hmem
    refine ⟨i, hi, hxs, fun y hy => (mem_eraseIdx_iff hpool hi).mpr ⟨hsub hy, ?_⟩⟩
    intro heq
    subst heq
    exact hx hy
  · intro h
    obtain ⟨i, hi, hxs, hsub⟩ := h
    refine ⟨⟨fun hx => ?_, hxs⟩, List.mem_of_getElem? hi,
      fun y hy => ((mem_eraseIdx_iff hpool hi).mp (hsub hy)).1⟩
    exact ((mem_eraseIdx_iff hpool hi).mp (hsub hx)).2 rfl

private theorem ordered_cons {pool : List γ} {x : γ} {xs : List γ} :
    (x :: xs).Sublist pool ↔ ∃ i, pool[i]? = some x ∧ xs.Sublist (pool.drop (i + 1)) := by
  induction pool with
  | nil => simp
  | cons p pool ih =>
    constructor
    · intro h
      cases h with
      | cons _ h =>
        obtain ⟨i, hi, hxs⟩ := ih.mp h
        exact ⟨i + 1, by simpa using hi, by simpa using hxs⟩
      | cons_cons _ h => exact ⟨0, rfl, by simpa using h⟩
    · intro h
      obtain ⟨i, hi, hxs⟩ := h
      cases i with
      | zero =>
        simp only [List.getElem?_cons_zero, Option.some.injEq] at hi
        subst hi
        simpa using hxs
      | succ i =>
        have htail := ih.mpr ⟨i, by simpa using hi, by simpa using hxs⟩
        exact htail.trans (List.sublist_cons_self p pool)

private theorem prefix_cons {pool : List γ} {x : γ} {xs : List γ} :
    x :: xs <+: pool ↔ pool[0]? = some x ∧ xs <+: pool.drop 1 := by
  cases pool with
  | nil => simp
  | cons p pool => simp [List.cons_prefix_cons, eq_comm]

private theorem infix_cons {pool : List γ} {x : γ} {xs : List γ} :
    x :: xs <:+: pool ↔ ∃ i, pool[i]? = some x ∧ xs <+: pool.drop (i + 1) := by
  constructor
  · intro h
    obtain ⟨before, behind, rfl⟩ := h
    refine ⟨before.length, by simp, behind, ?_⟩
    simp [List.append_assoc, List.drop_append]
  · intro h
    obtain ⟨i, hi, hxs⟩ := h
    have hdrop : pool.drop i = x :: pool.drop (i + 1) := by
      obtain ⟨hlt, rfl⟩ := List.getElem?_eq_some_iff.mp hi
      exact List.drop_eq_getElem_cons hlt
    have hprefix : x :: xs <+: pool.drop i := by
      rw [hdrop, List.cons_prefix_cons]
      exact ⟨rfl, hxs⟩
    exact hprefix.isInfix.trans (List.drop_suffix i pool).isInfix

/-- Taking a list of members is taking the first from the window and the others from what
is left. -/
theorem allows_cons (s : Strictness) (first : Bool) {pool : List γ} (hpool : pool.Nodup)
    (x : γ) (xs : List γ) :
    s.Allows first pool (x :: xs) ↔
      ∃ i, (s.window first pool)[i]? = some x ∧ s.Allows false (s.after i pool) xs := by
  cases s with
  | loose => simpa [Allows, window, after] using loose_cons hpool
  | ordered => simpa [Allows, window, after] using ordered_cons
  | contiguous =>
    cases first with
    | true => simpa [Allows, window, after] using infix_cons
    | false =>
      simp only [Allows, window, after, Bool.false_eq_true, if_false, and_self, if_true]
      rw [prefix_cons]
      constructor
      · intro h
        obtain ⟨hx, hxs⟩ := h
        exact ⟨0, by simpa [List.getElem?_take] using hx, hxs⟩
      · intro h
        obtain ⟨i, hi, hxs⟩ := h
        rw [List.getElem?_take] at hi
        split at hi
        · obtain rfl : i = 0 := by omega
          exact ⟨hi, hxs⟩
        · simp at hi

theorem eq_range'_of_consecutive (p : Nat) (ps : List Nat)
    (h : (p :: ps).IsChain fun i j => j = i + 1) : p :: ps = List.range' p (ps.length + 1) := by
  induction ps generalizing p with
  | nil => rfl
  | cons q ps ih =>
    obtain ⟨rfl, hrest⟩ := List.isChain_cons_cons.mp h
    exact congrArg (p :: ·) (ih _ hrest)

private theorem infix_range_iff {size : Nat} {ps : List Nat} :
    ps <:+: List.range size ↔
      (∀ i ∈ ps, i < size) ∧ ps.IsChain fun i j => j = i + 1 := by
  constructor
  · intro h
    refine ⟨fun i hi => List.mem_range.mp (h.subset hi), List.IsChain.infix ?_ h⟩
    exact (List.isChain_range _ size).mpr fun m _ => rfl
  · intro h
    obtain ⟨hrange, hchain⟩ := h
    cases ps with
    | nil => exact List.nil_infix
    | cons p ps =>
      have hrun := eq_range'_of_consecutive p ps hchain
      have hlast : p + ps.length < size := by
        apply hrange
        rw [hrun, List.mem_range'_1]
        omega
      refine ⟨List.range' 0 p, List.range' (p + (ps.length + 1)) (size - (p + ps.length + 1)), ?_⟩
      rw [hrun, List.append_assoc, List.range'_append_1]
      have hjoin := List.range'_append_1 (s := 0) (m := p) (n := size - p)
      rw [Nat.zero_add] at hjoin
      rw [List.range_eq_range', show ps.length + 1 + (size - (p + ps.length + 1)) = size - p by omega,
        hjoin, show p + (size - p) = size by omega]

theorem sublist_range_iff {size : Nat} {ps : List Nat} :
    ps.Sublist (List.range size) ↔ (∀ i ∈ ps, i < size) ∧ ps.Pairwise (· < ·) := by
  constructor
  · intro h
    exact ⟨fun i hi => List.mem_range.mp (h.subset hi), List.pairwise_lt_range.sublist h⟩
  · intro h
    obtain ⟨hrange, hps⟩ := h
    have hsubperm : ps.Subperm (List.range size) :=
      List.subperm_of_subset (hps.imp Nat.ne_of_lt) fun i hi => List.mem_range.mpr (hrange i hi)
    exact List.sublist_of_subperm_of_pairwise hsubperm hps List.pairwise_lt_range

/-- Among the positions below a bound, a strictness allows lists without repetitions that
increase, or go up one by one, where it says so. -/
theorem allows_range_iff (s : Strictness) (size : Nat) (ps : List Nat) :
    s.Allows true (List.range size) ps ↔
      ps.Nodup ∧ (∀ i ∈ ps, i < size) ∧ (s = .ordered → ps.Pairwise (· < ·)) ∧
        (s = .contiguous → ps.IsChain fun i j => j = i + 1) := by
  cases s with
  | loose => simp [Allows, List.subset_def]
  | ordered =>
    simp only [Allows, sublist_range_iff, reduceCtorEq, false_implies, and_true, true_implies]
    exact ⟨fun h => ⟨h.2.imp Nat.ne_of_lt, h⟩, fun h => h.2⟩
  | contiguous =>
    simp only [Allows, if_true, infix_range_iff, reduceCtorEq, false_implies, true_and,
      true_implies]
    refine ⟨fun h => ⟨?_, h⟩, fun h => h.2⟩
    exact (infix_range_iff.mpr h).sublist.nodup List.nodup_range

end Strictness

namespace Selection

variable {σ δ γ : Type}

/-- The state after the demands take the members, each the one at its place. -/
def carry (accept : σ → δ → γ → Option σ) : List δ → List γ → σ → Option σ
  | [], [], state => some state
  | demand :: demands, x :: xs, state => (accept state demand x).bind (carry accept demands xs)
  | _, _, _ => none

variable {s : Strictness} {accept : σ → δ → γ → Option σ}

/-- A search over images is a search over what they are images of. -/
theorem find?_map {ι : Type} (g : ι → γ) (first : Bool) (demands : List δ) (pool : List ι)
    (state : σ) :
    find? s accept first demands (pool.map g) state =
      (find? s (fun state demand i => accept state demand (g i)) first demands pool state).map
        fun (chosen, final) => (chosen.map g, final) := by
  induction demands generalizing first pool state with
  | nil => rfl
  | cons demand demands ih =>
    have hwindow : s.window first (pool.map g) = (s.window first pool).map g := by
      unfold Strictness.window
      split
      · rw [List.map_take]
      · rfl
    have hafter : ∀ i, s.after i (pool.map g) = (s.after i pool).map g := by
      intro i
      cases s with
      | loose => exact List.eraseIdx_map ..
      | ordered => exact List.map_drop.symm
      | contiguous => exact List.map_drop.symm
    rw [find?_cons, find?_cons, hwindow, List.zipIdx_map, List.findSome?_map, List.map_findSome?]
    congr 1
    funext p
    obtain ⟨i, k⟩ := p
    simp only [Function.comp_apply, Prod.map_apply, id_eq, hafter, ih]
    cases accept state demand (g i) with
    | none => rfl
    | some next => simp only [Option.bind_some, Option.map_map, Function.comp_def, List.map_cons]

/-- The members of a list with their positions, by position. -/
theorem zipIdx_eq_map_range {α : Type} (xs : List α) (default : α) :
    xs.zipIdx = (List.range xs.length).map fun i => (xs.getD i default, i) := by
  apply List.ext_getElem?
  intro i
  rw [List.getElem?_zipIdx, List.getElem?_map, Nat.zero_add]
  by_cases hi : i < xs.length
  · simp [List.getElem?_eq_getElem hi, List.getElem?_range hi]
  · have hrange : (List.range xs.length)[i]? = none := List.getElem?_eq_none (by simpa using hi)
    simp [List.getElem?_eq_none (Nat.le_of_not_lt hi), hrange]

theorem eq_map_range {α : Type} (xs : List α) (default : α) :
    xs = (List.range xs.length).map fun i => xs.getD i default := by
  have hfirst := congrArg (List.map Prod.fst) (zipIdx_eq_map_range xs default)
  rwa [List.zipIdx_map_fst, List.map_map] at hfirst

/-- What is not chosen among images is the image of what is not chosen. -/
theorem filter_not_contains_map {ι : Type} [BEq ι] [LawfulBEq ι] [BEq γ] [LawfulBEq γ]
    {g : ι → γ} (hg : Function.Injective g) (pool chosen : List ι) :
    ((pool.map g).filter fun x => !(chosen.map g).contains x) =
      (pool.filter fun i => !chosen.contains i).map g := by
  have hchosen : ∀ i, (chosen.map g).contains (g i) = chosen.contains i := by
    intro i
    rw [Bool.eq_iff_iff]
    simp [List.mem_map, hg.eq_iff]
  rw [List.filter_map]
  simp only [Function.comp_def, hchosen]

/-- A scan with positions stops at its first hit, and everything before it is a miss. -/
theorem exists_of_findSome?_zipIdx {α β : Type} {f : α × Nat → Option β} {xs : List α} {b : β}
    (h : xs.zipIdx.findSome? f = some b) :
    ∃ (i : Nat) (x : α), xs[i]? = some x ∧ f (x, i) = some b ∧
      ∀ (j : Nat) (y : α), j < i → xs[j]? = some y → f (y, j) = none := by
  obtain ⟨before, ⟨x, i⟩, behind, heq, hit, hmiss⟩ := List.findSome?_eq_some_iff.mp h
  have hget : ∀ j : Nat, (before ++ (x, i) :: behind)[j]? = xs[j]?.map fun y => (y, j) := by
    intro j
    rw [← heq, List.getElem?_zipIdx]
    simp
  have hat := hget before.length
  rw [List.getElem?_append_right (Nat.le_refl _), Nat.sub_self, List.getElem?_cons_zero, eq_comm,
    Option.map_eq_some_iff] at hat
  obtain ⟨y, hy, hpair⟩ := hat
  obtain ⟨rfl, rfl⟩ := Prod.mk.inj hpair
  refine ⟨before.length, y, hy, hit, fun j z hj hz => hmiss _ ?_⟩
  have hbefore := hget j
  rw [List.getElem?_append_left hj, hz] at hbefore
  exact List.mem_of_getElem? hbefore

/-- A search takes members of the pool. -/
theorem subset_of_find? {first : Bool} {demands : List δ} {pool chosen : List γ}
    {state final : σ} (h : find? s accept first demands pool state = some (chosen, final)) :
    chosen ⊆ pool := by
  induction demands generalizing first pool state chosen final with
  | nil =>
    obtain ⟨rfl, -⟩ := Prod.mk.inj (Option.some.inj h)
    exact List.nil_subset pool
  | cons demand demands ih =>
    rw [find?_cons] at h
    obtain ⟨i, x, hi, hit, -⟩ := exists_of_findSome?_zipIdx h
    obtain ⟨next, -, hfound⟩ := Option.bind_eq_some_iff.mp hit
    obtain ⟨⟨xs, last⟩, hxs, hpair⟩ := Option.map_eq_some_iff.mp hfound
    obtain ⟨rfl, -⟩ := Prod.mk.inj hpair
    have hx := List.mem_of_getElem? (Strictness.getElem?_of_window hi)
    exact List.cons_subset.mpr ⟨hx, List.Subset.trans (ih hxs) (s.after_sublist i pool).subset⟩

/-- The choice is allowed and carries the state from the one end to the other. -/
structure Selects (s : Strictness) (accept : σ → δ → γ → Option σ) (first : Bool)
    (demands : List δ) (pool : List γ) (state : σ) (chosen : List γ) (final : σ) : Prop where
  allowed : s.Allows first pool chosen
  carried : carry accept demands chosen state = some final

/-- A choice for several demands takes a member of the window for the first of them. -/
theorem selects_cons {first : Bool} {demand : δ} {demands : List δ} {pool : List γ}
    {state final : σ} {chosen : List γ} (hpool : pool.Nodup) :
    Selects s accept first (demand :: demands) pool state chosen final ↔
      ∃ i x xs next, chosen = x :: xs ∧ (s.window first pool)[i]? = some x ∧
        accept state demand x = some next ∧
        Selects s accept false demands (s.after i pool) next xs final := by
  constructor
  · intro h
    obtain ⟨hallowed, hcarried⟩ := h
    cases chosen with
    | nil => simp [carry] at hcarried
    | cons x xs =>
      obtain ⟨next, hnext, htail⟩ := Option.bind_eq_some_iff.mp hcarried
      obtain ⟨i, hi, hxs⟩ := (s.allows_cons first hpool x xs).mp hallowed
      exact ⟨i, x, xs, next, rfl, hi, hnext, hxs, htail⟩
  · intro h
    obtain ⟨i, x, xs, next, rfl, hi, hnext, hxs, htail⟩ := h
    exact ⟨(s.allows_cons first hpool x xs).mpr ⟨i, hi, hxs⟩,
      Option.bind_eq_some_iff.mpr ⟨next, hnext, htail⟩⟩

/-- Where there is a choice, the search finds one. -/
theorem exists_find?_of_selects {first : Bool} {demands : List δ} {pool chosen : List γ}
    {state final : σ} (hpool : pool.Nodup)
    (h : Selects s accept first demands pool state chosen final) :
    ∃ found, find? s accept first demands pool state = some found := by
  induction demands generalizing first pool state chosen with
  | nil => exact ⟨([], state), rfl⟩
  | cons demand demands ih =>
    obtain ⟨i, x, xs, next, rfl, hi, hnext, htail⟩ := (selects_cons hpool).mp h
    obtain ⟨found, hfound⟩ := ih (hpool.sublist (s.after_sublist i pool)) htail
    by_contra hnot
    have hnone := Option.eq_none_iff_forall_ne_some.mpr fun r hr => hnot ⟨r, hr⟩
    rw [find?_cons, List.findSome?_eq_none_iff] at hnone
    have hmiss := hnone (x, i) (List.mk_mem_zipIdx_iff_getElem?.mpr hi)
    simp [hnext, hfound] at hmiss

/-- A list of positions that has a property, and before which no other that has it comes in
the lexicographic order. -/
structure Least (P : List Nat → Prop) (ps : List Nat) : Prop where
  holds : P ps
  earliest : ∀ qs, P qs → ¬ List.Lex (· < ·) qs ps

theorem Least.unique {P : List Nat → Prop} {ps qs : List Nat} (hps : Least P ps)
    (hqs : Least P qs) : ps = qs :=
  Std.Trichotomous.trichotomous (r := List.Lex (· < ·)) ps qs (hqs.earliest ps hps.holds)
    (hps.earliest qs hqs.holds)

private theorem not_lex_cons {p q : Nat} {ps qs : List Nat}
    (h : q < p ∨ q = p ∧ ¬ List.Lex (· < ·) ps qs) :
    ¬ List.Lex (· < ·) (p :: ps) (q :: qs) := by
  intro hlex
  cases hlex with
  | rel hlt => omega
  | cons htail =>
    rcases h with hlt | ⟨-, hnot⟩
    · exact Nat.lt_irrefl _ hlt
    · exact hnot htail

/-- What the search finds is a choice, and no choice comes before it. -/
theorem least_of_find? {accept : σ → δ → Nat → Option σ} {first : Bool} {demands : List δ}
    {pool chosen : List Nat} {state final : σ} (hpool : pool.Pairwise (· < ·))
    (h : find? s accept first demands pool state = some (chosen, final)) :
    Selects s accept first demands pool state chosen final ∧
      ∀ other last, Selects s accept first demands pool state other last →
        ¬ List.Lex (· < ·) other chosen := by
  induction demands generalizing first pool state chosen with
  | nil =>
    simp only [find?_nil, Option.some.injEq, Prod.mk.injEq] at h
    obtain ⟨rfl, rfl⟩ := h
    exact ⟨⟨s.allows_nil first pool, rfl⟩, fun other last _ => List.not_lex_nil⟩
  | cons demand demands ih =>
    have hnodup : pool.Nodup := hpool.imp Nat.ne_of_lt
    rw [find?_cons] at h
    obtain ⟨i, x, hi, hit, hmiss⟩ := exists_of_findSome?_zipIdx h
    obtain ⟨next, hnext, hfound⟩ := Option.bind_eq_some_iff.mp hit
    obtain ⟨⟨xs, last⟩, hxs, hpair⟩ := Option.map_eq_some_iff.mp hfound
    obtain ⟨rfl, rfl⟩ := Prod.mk.inj hpair
    obtain ⟨htail, hleast⟩ := ih (hpool.sublist (s.after_sublist i pool)) hxs
    refine ⟨(selects_cons hnodup).mpr ⟨i, x, xs, next, rfl, hi, hnext, htail⟩, ?_⟩
    intro other other_last hother
    obtain ⟨j, y, ys, next', rfl, hj, hnext', htail'⟩ := (selects_cons hnodup).mp hother
    apply not_lex_cons
    rcases Nat.lt_trichotomy i j with hlt | rfl | hgt
    · obtain ⟨hil, rfl⟩ := List.getElem?_eq_some_iff.mp (Strictness.getElem?_of_window hi)
      obtain ⟨hjl, rfl⟩ := List.getElem?_eq_some_iff.mp (Strictness.getElem?_of_window hj)
      exact Or.inl (List.pairwise_iff_getElem.mp hpool i j hil hjl hlt)
    · obtain rfl : x = y := Option.some.inj (hi.symm.trans hj)
      obtain rfl : next = next' := Option.some.inj (hnext.symm.trans hnext')
      exact Or.inr ⟨rfl, hleast ys other_last htail'⟩
    · -- The search tried this member first and would have gone on from it.
      have htried := hmiss j y hgt hj
      obtain ⟨found, hfound'⟩ :=
        exists_find?_of_selects (hnodup.sublist (s.after_sublist j pool)) htail'
      simp [hnext', hfound'] at htried

/-- The search over positions finds the least choice and its state. -/
theorem find?_eq_some_iff {accept : σ → δ → Nat → Option σ} {first : Bool} {demands : List δ}
    {pool chosen : List Nat} {state final : σ} (hpool : pool.Pairwise (· < ·)) :
    find? s accept first demands pool state = some (chosen, final) ↔
      Least (fun ps => ∃ last, Selects s accept first demands pool state ps last) chosen ∧
        Selects s accept first demands pool state chosen final := by
  constructor
  · intro h
    obtain ⟨hselects, hfirst⟩ := least_of_find? hpool h
    refine ⟨⟨⟨final, hselects⟩, fun other hother => ?_⟩, hselects⟩
    obtain ⟨last, hlast⟩ := hother
    exact hfirst other last hlast
  · intro h
    obtain ⟨hleast, hchosen⟩ := h
    obtain ⟨⟨found, last⟩, hfound⟩ := exists_find?_of_selects (hpool.imp Nat.ne_of_lt) hchosen
    obtain ⟨hselects, hfirst⟩ := least_of_find? hpool hfound
    obtain rfl : found = chosen := Least.unique
      ⟨⟨last, hselects⟩, fun other ⟨last', hother⟩ => hfirst other last' hother⟩ hleast
    obtain rfl : last = final := Option.some.inj (hselects.carried.symm.trans hchosen.carried)
    exact hfound

theorem find?_eq_none_iff {accept : σ → δ → Nat → Option σ} {first : Bool} {demands : List δ}
    {pool : List Nat} {state : σ} (hpool : pool.Pairwise (· < ·)) :
    find? s accept first demands pool state = none ↔
      ∀ chosen final, ¬ Selects s accept first demands pool state chosen final := by
  constructor
  · intro hnone chosen final h
    obtain ⟨found, hfound⟩ := exists_find?_of_selects (hpool.imp Nat.ne_of_lt) h
    simp [hnone] at hfound
  · intro hnot
    cases hfound : find? s accept first demands pool state with
    | none => rfl
    | some found => exact absurd (least_of_find? hpool hfound).1 (hnot found.1 found.2)

end Selection

end Simmer
