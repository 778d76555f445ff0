import Simmer.Proofs.Selection.Order
import Simmer.Proofs.Selection.Sieve
import Mathlib.Data.List.Forall2

/-!
Values found in a list. An embedding puts values at different positions where they stand, and
in order where this is asked for. There is one in any order exactly when no value is asked for
more often than it is there, and one in order exactly when the values are a sublist. Of all
embeddings in any order, the least one uses the first occurrences of each value; of those in
order, it is at every place as far to the left as any other one.
-/
namespace Simmer.Selection

variable {α : Type}

/-- Positions at which the values stand, none of them taken twice, in order if that is asked. -/
structure Embeds (ordered : Bool) (values xs : List α) (ps : List Nat) : Prop where
  standing : List.Forall₂ (fun i value => xs[i]? = some value) ps values
  injective : ps.Nodup
  increasing : ordered = true → ps.Pairwise (· < ·)

/-- An embedding in order that is nowhere to the right of another one. -/
structure Leftmost (values xs : List α) (ps : List Nat) : Prop where
  embeds : Embeds true values xs ps
  le_all : ∀ qs, Embeds true values xs qs → List.Forall₂ (· ≤ ·) ps qs

section existence

variable {values xs : List α} {ps : List Nat}

/-- Values stand at positions of the list when they are what is found there. -/
theorem forall₂_standing_iff (default : α) :
    List.Forall₂ (fun i value => xs[i]? = some value) ps values ↔
      (∀ i ∈ ps, i < xs.length) ∧ ps.map (fun i => xs.getD i default) = values := by
  induction ps generalizing values with
  | nil => simp [eq_comm]
  | cons i ps ih =>
    rw [List.forall₂_cons_left_iff, List.forall_mem_cons, List.map_cons]
    constructor
    · rintro ⟨value, rest, hi, hrest, rfl⟩
      obtain ⟨hlt, hvalues⟩ := ih.mp hrest
      refine ⟨⟨(List.getElem?_eq_some_iff.mp hi).1, hlt⟩, ?_⟩
      rw [hvalues, List.getD_eq_getElem?_getD, hi, Option.getD_some]
    · rintro ⟨⟨hi, hlt⟩, rfl⟩
      refine ⟨_, _, ?_, ih.mpr ⟨hlt, rfl⟩, rfl⟩
      rw [List.getD_eq_getElem?_getD, List.getElem?_eq_getElem hi, Option.getD_some]

theorem Embeds.in_range [Inhabited α] {ordered : Bool} (h : Embeds ordered values xs ps) :
    ∀ i ∈ ps, i < xs.length :=
  ((forall₂_standing_iff default).mp h.standing).1

/-- Values can be found in any order when each is there as often as it is asked for. -/
theorem exists_embeds_iff_count [Inhabited α] [DecidableEq α] :
    (∃ ps, Embeds false values xs ps) ↔ ∀ x, values.count x ≤ xs.count x := by
  have hcount : (∀ x, values.count x ≤ xs.count x) ↔
      values.Subperm ((List.range xs.length).map fun i => xs.getD i default) := by
    rw [← eq_map_range, List.subperm_iff_count]
  rw [hcount, subperm_map_range_iff]
  constructor
  · rintro ⟨ps, hps⟩
    obtain ⟨hrange, hvalues⟩ := (forall₂_standing_iff default).mp hps.standing
    exact ⟨ps, hps.injective, hrange, hvalues⟩
  · rintro ⟨ps, hnodup, hrange, hvalues⟩
    exact ⟨ps, (forall₂_standing_iff default).mpr ⟨hrange, hvalues⟩, hnodup, nofun⟩

/-- Values can be found in order when they are a sublist. -/
theorem exists_embeds_iff_sublist [Inhabited α] :
    (∃ ps, Embeds true values xs ps) ↔ values.Sublist xs := by
  have hmap := eq_map_range xs default
  constructor
  · rintro ⟨ps, hps⟩
    obtain ⟨hrange, rfl⟩ := (forall₂_standing_iff default).mp hps.standing
    have hsub := (Strictness.sublist_range_iff.mpr ⟨hrange, hps.increasing rfl⟩).map
      fun i => xs.getD i default
    rwa [← hmap] at hsub
  · intro hsub
    rw [hmap] at hsub
    obtain ⟨ps, hps, rfl⟩ := List.sublist_map_iff.mp hsub
    obtain ⟨hrange, hincreasing⟩ := Strictness.sublist_range_iff.mp hps
    exact ⟨ps, (forall₂_standing_iff default).mpr ⟨hrange, rfl⟩, hincreasing.imp Nat.ne_of_lt,
      fun _ => hincreasing⟩

end existence

section least

variable {values xs : List α} {ps qs : List Nat}

/-- Lists of one length stay in order when the same is put behind both of them. -/
theorem lex_append_right (h : List.Lex (· < ·) ps qs)
    (hlength : ps.length = qs.length) (rest : List Nat) :
    List.Lex (· < ·) (ps ++ rest) (qs ++ rest) := by
  induction h with
  | nil => cases hlength
  | cons _ ih => exact .cons (ih (Nat.succ.inj hlength))
  | rel hlt => exact .rel hlt

theorem lex_of_forall₂_le (h : List.Forall₂ (· ≤ ·) ps qs) :
    ps = qs ∨ List.Lex (· < ·) ps qs := by
  induction h with
  | nil => exact .inl rfl
  | cons hle _ ih =>
    rcases Nat.lt_or_eq_of_le hle with hlt | rfl
    · exact .inr (.rel hlt)
    · rcases ih with rfl | hlex
      · exact .inl rfl
      · exact .inr (.cons hlex)

/-- Nothing else with the property is at no place to the right of the least one. -/
theorem Least.eq_of_forall₂_le {P : List Nat → Prop} (h : Least P ps) (hqs : P qs)
    (hle : List.Forall₂ (· ≤ ·) qs ps) : qs = ps :=
  (lex_of_forall₂_le hle).resolve_right (h.earliest qs hqs)

/-- Another occurrence of a value may be used in place of the one that is used. -/
theorem Embeds.replace (h : Embeds false values xs ps) {i j : Nat} (hi : i ∉ ps)
    (hsame : xs[i]? = xs[j]?) :
    Embeds false values xs (ps.map fun p => if p = j then i else p) where
  standing := by
    rw [List.forall₂_map_left_iff]
    refine h.standing.imp fun p value hp => ?_
    split
    · rename_i hpj
      rw [hsame, ← hpj, hp]
    · exact hp
  injective := by
    refine h.injective.map_on fun p hp q hq heq => ?_
    by_cases hpj : p = j <;> by_cases hqj : q = j
    · rw [hpj, hqj]
    · rw [if_pos hpj, if_neg hqj] at heq
      exact absurd (heq ▸ hq) hi
    · rw [if_neg hpj, if_pos hqj] at heq
      exact absurd (heq ▸ hp) hi
    · rwa [if_neg hpj, if_neg hqj] at heq
  increasing := nofun

/-- The least embedding leaves no occurrence of a value for a later one. -/
theorem mem_of_least (h : Least (Embeds false values xs) ps) {i j : Nat} (hij : i < j)
    (hsame : xs[i]? = xs[j]?) (hj : j ∈ ps) : i ∈ ps := by
  by_contra hi
  have hle : List.Forall₂ (· ≤ ·) (ps.map fun p => if p = j then i else p) ps := by
    rw [List.forall₂_map_left_iff, List.forall₂_same]
    intro p _
    split
    · rename_i hpj
      exact hpj ▸ Nat.le_of_lt hij
    · exact Nat.le_refl p
  have heq := h.eq_of_forall₂_le (h.holds.replace hi hsame) hle
  apply hi
  rw [← heq]
  exact List.mem_map.mpr ⟨j, hj, if_pos rfl⟩

/-- The least embedding leaves the list without the first occurrences of the values. -/
theorem others_eq_diff [Inhabited α] [BEq α] [LawfulBEq α]
    (h : Least (Embeds false values xs) ps) : others ps xs = xs.diff values := by
  obtain ⟨hrange, hvalues⟩ := (forall₂_standing_iff default).mp h.holds.standing
  have hused : (sieve ps.contains xs).Perm values :=
    hvalues ▸ (perm_sieve_contains default h.holds.injective hrange).symm
  refine sieve_eq_diff hused fun i j x hij hi hj hmem => ?_
  rw [List.contains_iff_mem] at hmem ⊢
  exact mem_of_least h hij (hi.trans hj.symm) hmem

theorem forall₂_zipWith_min {R : Nat → α → Prop} (hps : List.Forall₂ R ps values)
    (hqs : List.Forall₂ R qs values) : List.Forall₂ R (List.zipWith min ps qs) values := by
  induction hps generalizing qs with
  | nil => exact .nil
  | cons hp _ ih =>
    obtain ⟨q, rest, hq, hrest, rfl⟩ := List.forall₂_cons_right_iff.mp hqs
    refine .cons ?_ (ih hrest)
    rw [Nat.min_def]
    split
    · exact hp
    · exact hq

theorem zipWith_min_le (hlength : ps.length = qs.length) :
    List.Forall₂ (· ≤ ·) (List.zipWith min ps qs) ps ∧
      List.Forall₂ (· ≤ ·) (List.zipWith min ps qs) qs := by
  induction ps generalizing qs with
  | nil =>
    obtain rfl := List.eq_nil_of_length_eq_zero hlength.symm
    exact ⟨.nil, .nil⟩
  | cons p ps ih =>
    cases qs with
    | nil => cases hlength
    | cons q qs =>
      obtain ⟨hps, hqs⟩ := ih (Nat.succ.inj hlength)
      exact ⟨.cons (Nat.min_le_left p q) hps, .cons (Nat.min_le_right p q) hqs⟩

/-- Two embeddings in order, at each place the one that is further to the left. -/
theorem Embeds.min (h : Embeds true values xs ps) (h' : Embeds true values xs qs) :
    Embeds true values xs (List.zipWith min ps qs) := by
  have hincreasing : (List.zipWith Min.min ps qs).Pairwise (· < ·) := by
    rw [List.pairwise_iff_getElem]
    intro i j hi hj hij
    rw [List.length_zipWith, Nat.lt_min] at hi hj
    have hp := List.pairwise_iff_getElem.mp (h.increasing rfl) i j hi.1 hj.1 hij
    have hq := List.pairwise_iff_getElem.mp (h'.increasing rfl) i j hi.2 hj.2 hij
    rw [List.getElem_zipWith, List.getElem_zipWith]
    omega
  exact ⟨forall₂_zipWith_min h.standing h'.standing, hincreasing.imp Nat.ne_of_lt,
    fun _ => hincreasing⟩

/-- The least embedding in order is the leftmost one. -/
theorem leftmost_of_least (h : Least (Embeds true values xs) ps) : Leftmost values xs ps := by
  refine ⟨h.holds, fun qs hqs => ?_⟩
  have hlength : ps.length = qs.length :=
    h.holds.standing.length_eq.trans hqs.standing.length_eq.symm
  obtain ⟨hps, hle⟩ := zipWith_min_le hlength
  rwa [h.eq_of_forall₂_le (h.holds.min hqs) hps] at hle

end least

end Simmer.Selection
