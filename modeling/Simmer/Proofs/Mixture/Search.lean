import Simmer.Mixture.Match
import Simmer.Proofs.Absorption
import Simmer.Proofs.Selection.Least

/-!
The search for an assignment gives back what it takes. A component is marked and the bindings
found in it are absorbed; when the rest fails, the mark is wiped and the new names are forgotten.
Each attempt therefore begins with the same assignment, and the events and the result are those
of the search over the free components.
-/
namespace Simmer

namespace Selection

variable {σ δ γ : Type}

theorem value_findSomeM? {α β : Type} (f : α → Traced (Option β)) (xs : List α) :
    (xs.findSomeM? f).value = xs.findSome? fun x => (f x).value := by
  induction xs with
  | nil => rfl
  | cons x xs ih =>
    simp only [List.findSomeM?, List.findSome?, Traced.value_bind]
    cases (f x).value with
    | none => exact ih
    | some b => rfl

/-- What a search selects does not depend on the events of its attempts. -/
theorem value_search (s : Strictness) (accept : σ → δ → γ → Traced (Option σ)) (first : Bool)
    (demands : List δ) (pool : List γ) (state : σ) :
    (search s accept first demands pool state).value =
      find? s (fun state demand x => (accept state demand x).value)
        first demands pool state := by
  induction demands generalizing first pool state with
  | nil => rfl
  | cons demand demands ih =>
    rw [find?_cons, search, value_findSomeM?]
    congr 1
    funext p
    obtain ⟨x, i⟩ := p
    simp only [Traced.value_bind]
    cases (accept state demand x).value with
    | none => rfl
    | some next =>
      simp only [Traced.value_bind, ih, Option.bind_some]
      split <;> simp_all

end Selection

/-- The bindings after the component is taken for the pattern, if it may be. -/
def Pattern.accept (oracle : Oracle) (bound : Bindings) (p : Pattern) (x : Component × Nat) :
    Traced (Option Bindings) := do
  match ← p.probe oracle x.1 with
  | none => pure none
  | some found => pure (if bound.agrees found then some (bound.absorb found) else none)

namespace Assignment

variable {oracle : Oracle} {components : List Component} {s : Assignment} {i k : Nat}
  {x : Component × Nat} {chosen : List (Component × Nat)}

/-- The components that are not taken, with their positions. -/
def free (components : List Component) (s : Assignment) : List (Component × Nat) :=
  components.zipIdx.filter fun x => s.taken[x.2]? = some false

theorem nodup_free (components : List Component) (s : Assignment) :
    ((s.free components).map Prod.snd).Nodup := by
  have hall : (components.zipIdx.map Prod.snd).Nodup := by
    rw [List.zipIdx_map_snd]
    exact List.nodup_range'
  exact hall.sublist (List.filter_sublist.map _)

/-- The component that is taken is not free any more, and the others stay as they are. -/
theorem free_take (bound : Bindings) (hx : (s.free components)[k]? = some x) :
    free components ⟨s.taken.set x.2 true, bound⟩ = (s.free components).eraseIdx k := by
  have hothers : free components ⟨s.taken.set x.2 true, bound⟩ =
      (s.free components).filter fun y => y.2 ≠ x.2 := by
    rw [free, free, List.filter_filter]
    apply List.filter_congr
    intro y _
    by_cases hy : y.2 = x.2
    · by_cases hlt : x.2 < s.taken.length <;> simp [hy, hlt]
    · simp [hy, List.getElem?_set_ne (Ne.symm hy)]
  obtain ⟨front, back, hcut, rfl⟩ := Selection.exists_cut hx
  have hdistinct := nodup_free components s
  rw [hcut, List.map_append, List.map_cons] at hdistinct
  obtain ⟨-, hback, hfront⟩ := List.nodup_append.mp hdistinct
  have hkeep (others : List (Component × Nat)) (hothers : x.2 ∉ others.map Prod.snd) :
      (others.filter fun y => y.2 ≠ x.2) = others := by
    rw [List.filter_eq_self]
    intro y hy
    have hne : y.2 ≠ x.2 := fun heq => hothers (heq ▸ List.mem_map_of_mem hy)
    simpa using hne
  rw [hothers, hcut, List.filter_append, List.filter_cons_of_neg (by simp),
    hkeep front fun hmem => hfront _ hmem _ List.mem_cons_self rfl,
    hkeep back (List.nodup_cons.mp hback).1]
  simp [List.eraseIdx_append_of_length_le]

/-- The mark and the names that a component brought are taken back. -/
theorem give_back (hx : s.taken[i]? = some false) (found : Bindings) :
    (⟨(s.taken.set i true).set i false, (s.bound.absorb found).forget (s.bound.newNames found)⟩ :
      Assignment) = s := by
  obtain ⟨hlt, hfree⟩ := List.getElem?_eq_some_iff.mp hx
  have hset : s.taken.set i false = s.taken := by
    rw [← hfree, List.set_getElem_self]
  rw [Roster.forget_absorb, List.set_set, hset]

/-- The components that were chosen are marked, with what is bound then. -/
def leave (s : Assignment) (placed : List (Component × Nat) × Bindings) : Unit × Assignment :=
  ((), ⟨placed.1.foldl (fun taken x => taken.set x.2 true) s.taken, placed.2⟩)

/-- What comes of it when a pattern takes a free component: the other patterns look among the
components that are free then. -/
def follow? (oracle : Oracle) (components : List Component) (p : Pattern) (ps : List Pattern)
    (s : Assignment) (x : Component × Nat) :
    Traced (Option (List (Component × Nat) × Bindings)) := do
  match ← Pattern.accept oracle s.bound p x with
  | none => pure none
  | some next =>
    match ← Selection.search .loose (Pattern.accept oracle) false ps
      (free components ⟨s.taken.set x.2 true, next⟩) next with
    | none => pure none
    | some (chosen, final) => pure (some (x :: chosen, final))

/-- The search over the free components tries what follows from each of them. -/
theorem search_free (oracle : Oracle) (components : List Component) (first : Bool) (p : Pattern)
    (ps : List Pattern) (s : Assignment) :
    Selection.search .loose (Pattern.accept oracle) first (p :: ps) (s.free components) s.bound =
      (s.free components).findSomeM? (follow? oracle components p ps s) := by
  conv_rhs => rw [← List.zipIdx_map_fst 0 (s.free components)]
  rw [Selection.findSomeM?_map, Selection.search]
  apply Selection.findSomeM?_congr
  intro y hy
  obtain ⟨x, k⟩ := y
  have htake (next : Bindings) := free_take next (List.mem_zipIdx_iff_getElem?.mp hy)
  rw [follow?]
  refine bind_congr fun next? => ?_
  cases next? with
  | none => rfl
  | some next =>
    simp only [htake]
    refine bind_congr fun placed? => ?_
    cases placed? with
    | none => rfl
    | some placed => rfl

/-- An attempt comes to what follows from it when all that goes on from there gives back what
it takes. -/
theorem attempt_eq (components : List Component) (p : Pattern) (ps : List Pattern)
    {goOn : Assignment → Traced (Option Unit × Assignment)}
    (hgoOn : ∀ t : Assignment, goOn t = Selection.conclude t (leave t) <$>
      Selection.search .loose (Pattern.accept oracle) false ps (t.free components) t.bound)
    (hx : s.taken[x.2]? = some false) :
    attempt oracle p goOn x s =
      Selection.conclude s (leave s) <$> follow? oracle components p ps s x := by
  rw [attempt, if_pos hx, follow?, Pattern.accept, bind_assoc, map_bind]
  congr 1
  funext found?
  cases found? with
  | none => simp [Selection.conclude]
  | some found =>
    by_cases hagrees : s.bound.agrees found = true
    · simp only [hagrees, if_true, pure_bind, taking, hgoOn, map_bind, bind_map_left]
      congr 1
      funext placed?
      cases placed? with
      | none =>
        simp only [Selection.conclude, map_pure]
        rw [give_back hx found]
      | some placed => simp [Selection.conclude, leave]
    · simp [hagrees, Selection.conclude]

/-- An attempt in vain leaves the assignment as it was, and the first that succeeds is that of
the search over the free components. -/
theorem assign_eq (oracle : Oracle) (components : List Component) (first : Bool)
    (ps : List Pattern) (s : Assignment) :
    assign oracle components ps s = Selection.conclude s (leave s) <$>
      Selection.search .loose (Pattern.accept oracle) first ps (s.free components) s.bound := by
  induction ps generalizing first s with
  | nil => simp [assign, Selection.search, Selection.conclude, leave]
  | cons p ps ih =>
    have hattempt : ∀ x ∈ components.zipIdx,
        attempt oracle p (assign oracle components ps) x s =
          Selection.conclude s (leave s) <$>
            if s.taken[x.2]? = some false then follow? oracle components p ps s x
            else pure none := by
      intro x _
      by_cases hx : s.taken[x.2]? = some false
      · rw [if_pos hx, attempt_eq components p ps (ih false) hx]
      · rw [attempt, if_neg hx, if_neg hx]
        rfl
    rw [assign, Selection.attempts_eq_map hattempt, search_free, free,
      Selection.findSomeM?_filter]
    simp only [decide_eq_true_eq]

section marks

/-- At first all components are free. -/
theorem free_start (components : List Component) :
    free components (start components.length) = components.zipIdx := by
  rw [free, List.filter_eq_self]
  intro x hx
  have hlt : x.2 < components.length := List.snd_lt_of_mem_zipIdx hx
  simp [start, hlt]

theorem assign_start (oracle : Oracle) (components : List Component) (ps : List Pattern) :
    assign oracle components ps (start components.length) =
      Selection.conclude (start components.length) (leave (start components.length)) <$>
        Selection.search .loose (Pattern.accept oracle) true ps components.zipIdx .empty := by
  rw [← free_start components]
  exact assign_eq oracle components true ps (start components.length)

theorem getElem?_foldl_set (taken : List Bool) (chosen : List (Component × Nat)) (i : Nat) :
    (chosen.foldl (fun taken x => taken.set x.2 true) taken)[i]? =
      taken[i]?.map fun marked => marked || (chosen.map Prod.snd).contains i := by
  induction chosen generalizing taken with
  | nil => simp
  | cons x chosen ih =>
    rw [List.foldl_cons, ih, List.getElem?_set, List.map_cons, List.contains_cons]
    by_cases hx : x.2 = i
    · by_cases hlt : i < taken.length <;> simp [hx, hlt]
    · have hne : (i == x.2) = false := beq_eq_false_iff_ne.mpr (Ne.symm hx)
      rw [if_neg hx, hne, Bool.false_or]

/-- What is not marked in the end is what was not chosen. -/
theorem leftovers_leave (components : List Component) (bound : Bindings)
    (hchosen : chosen ⊆ components.zipIdx) :
    (leave (start components.length) (chosen, bound)).2.leftovers components =
      ⟨(components.zipIdx.filter fun x => !chosen.contains x).map Prod.fst⟩ := by
  have hposition {i : Nat} {c : Component} (hi : components[i]? = some c) :
      i ∈ chosen.map Prod.snd ↔ (c, i) ∈ chosen := by
    constructor
    · intro hmem
      obtain ⟨x, hx, rfl⟩ := List.mem_map.mp hmem
      have hsame := List.mem_zipIdx_iff_getElem?.mp (hchosen hx)
      obtain rfl : x.1 = c := Option.some.inj (hsame.symm.trans hi)
      exact hx
    · exact fun hmem => List.mem_map_of_mem hmem
  have hmarked : components.zip (leave (start components.length) (chosen, bound)).2.taken =
      components.zipIdx.map fun x => (x.1, chosen.contains x) := by
    apply List.ext_getElem?
    intro i
    rw [List.zip_eq_zipWith, List.getElem?_zipWith, leave, getElem?_foldl_set, List.getElem?_map,
      List.getElem?_zipIdx]
    cases hi : components[i]? with
    | none => simp
    | some c =>
      have hlt := (List.getElem?_eq_some_iff.mp hi).1
      simpa [start, hlt] using hposition hi
  rw [leftovers, hmarked, List.filter_map, List.map_map]
  rfl

end marks

end Assignment

end Simmer
