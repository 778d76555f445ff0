import Simmer.Proofs.Mixture.Search
import Simmer.Proofs.Selection.Agreement
import Simmer.Proofs.Selection.Sieve

/-!
What a mixture pattern matches. An assignment sends the elements of the pattern to different
components, each of which its element matches, so that the bindings of these matches agree.
Matching finds the least assignment in the lexicographic order of positions and nothing else;
its bindings are those of the elements taken together, and the rest of the mixture is left.
-/
namespace Simmer

/-- The components at the positions that are not listed. -/
def Mixture.without (m : Mixture) (ps : List Nat) : Mixture :=
  ⟨(m.components.zipIdx.filter fun (_, i) => !ps.contains i).map Prod.fst⟩

namespace MixturePattern

/-- The elements go to the components at the positions, each to its own, and find there
bindings that give no name two values. -/
structure Assigns (oracle : Oracle) (p : MixturePattern) (m : Mixture) (ps : List Nat)
    (found : List Bindings) : Prop where
  length_positions : ps.length = p.elements.length
  length_found : found.length = p.elements.length
  injective : ps.Nodup
  in_range : ∀ i ∈ ps, i < m.components.length
  matched : ∀ (k : Nat) element i component, p.elements[k]? = some element → ps[k]? = some i →
    m.components[i]? = some component → element.match? oracle component = found[k]?
  agreeing : ∀ b ∈ found, ∀ b' ∈ found, ∀ name v v',
    (name, v) ∈ b.entries → (name, v') ∈ b'.entries → v = v'

variable {oracle : Oracle} {p : MixturePattern} {m : Mixture} {ps : List Nat}

/-- The component at a position, together with the position. -/
def candidate (m : Mixture) (i : Nat) : Component × Nat :=
  (m.components.getD i default, i)

theorem candidate_injective (m : Mixture) : Function.Injective (candidate m) :=
  fun _ _ h => congrArg Prod.snd h

theorem zipIdx_components (m : Mixture) :
    m.components.zipIdx = (List.range m.components.length).map (candidate m) :=
  Selection.zipIdx_eq_map_range m.components default

theorem components_eq_map_range (m : Mixture) :
    m.components = (List.range m.components.length).map fun i => (candidate m i).1 :=
  Selection.eq_map_range m.components default

/-- What is not chosen is what stands at the other positions. -/
theorem leftovers_eq (m : Mixture) (ps : List Nat) :
    ((m.components.zipIdx.filter fun x => !(ps.map (candidate m)).contains x).map Prod.fst) =
      (m.without ps).components := by
  rw [Mixture.without, zipIdx_components,
    Selection.filter_not_contains_map (candidate_injective m), List.filter_map]
  rfl

theorem value_accept (oracle : Oracle) :
    (fun bound element x => (Pattern.accept oracle bound element x).value) =
      Selection.absorbFound fun (element : Pattern) (x : Component × Nat) =>
        element.match? oracle x.1 := by
  funext bound element x
  simp only [Pattern.accept, Traced.value_bind, Pattern.value_probe, Selection.absorbFound]
  cases element.match? oracle x.1 with
  | none => rfl
  | some found => rfl

/-- The match is made of what the search chooses. -/
theorem match?_eq_map_value (oracle : Oracle) (m : Mixture) (p : MixturePattern) :
    p.match? oracle m =
      (Selection.search .loose (Pattern.accept oracle) true p.elements m.components.zipIdx
        .empty).value.map fun (chosen, bound) =>
          ⟨bound, ⟨(m.components.zipIdx.filter fun x => !chosen.contains x).map Prod.fst⟩⟩ := by
  rw [match?, probe, Traced.value_bind, Assignment.assign_start, Traced.value_map]
  cases hsearch : (Selection.search .loose (Pattern.accept oracle) true p.elements
      m.components.zipIdx .empty).value with
  | none => rfl
  | some placed =>
    obtain ⟨chosen, bound⟩ := placed
    rw [Selection.value_search] at hsearch
    have hleft := Assignment.leftovers_leave m.components bound (Selection.subset_of_find? hsearch)
    simp only [Selection.conclude, Option.map_some, hleft]
    rfl

/-- Matching is a search over positions whose state absorbs the bindings that are found. -/
theorem match?_eq_map (oracle : Oracle) (m : Mixture) (p : MixturePattern) :
    p.match? oracle m =
      (Selection.find? .loose
        (Selection.absorbFound fun element i => element.match? oracle (candidate m i).1) true
        p.elements (List.range m.components.length) .empty).map
          fun (ps, bound) => ⟨bound, m.without ps⟩ := by
  rw [match?_eq_map_value, Selection.value_search, value_accept, zipIdx_components,
    Selection.find?_map, Option.map_map, ← zipIdx_components]
  congr 1
  funext found
  obtain ⟨ps, bound⟩ := found
  exact congrArg (MixtureMatch.mk bound) (congrArg Mixture.mk (leftovers_eq m ps))

theorem coherent_flatMap_iff {found : List Bindings} :
    Roster.Coherent (found.flatMap Roster.entries) ↔
      ∀ b ∈ found, ∀ b' ∈ found, ∀ name v v',
        (name, v) ∈ b.entries → (name, v') ∈ b'.entries → v = v' := by
  simp only [Roster.Coherent, List.mem_flatMap]
  constructor
  · intro h b hb b' hb' name v v' hv hv'
    exact h name v v' ⟨b, hb, hv⟩ ⟨b', hb', hv'⟩
  · intro h name v v' hv hv'
    obtain ⟨b, hb, hv⟩ := hv
    obtain ⟨b', hb', hv'⟩ := hv'
    exact h b hb b' hb' name v v' hv hv'

theorem meets_iff (hrange : ∀ i ∈ ps, i < m.components.length) {found : List Bindings} :
    Selection.Meets (fun (element : Pattern) i => element.match? oracle (candidate m i).1)
        p.elements ps found ↔
      ps.length = p.elements.length ∧ found.length = p.elements.length ∧
        ∀ (k : Nat) element i component, p.elements[k]? = some element → ps[k]? = some i →
          m.components[i]? = some component → element.match? oracle component = found[k]? := by
  have hat : ∀ {k i : Nat}, ps[k]? = some i → ∀ component,
      m.components[i]? = some component ↔ component = (candidate m i).1 := by
    intro k i hi component
    have hlt : i < m.components.length := hrange i (List.mem_of_getElem? hi)
    simp [candidate, List.getElem?_eq_getElem hlt, eq_comm]
  constructor
  · intro h
    refine ⟨h.length_members, h.length_found, ?_⟩
    intro k element i component helement hi hcomponent
    rw [(hat hi component).mp hcomponent]
    exact h.found_at k element i helement hi
  · intro h
    obtain ⟨hps, hfound, hmatched⟩ := h
    refine ⟨hps, hfound, ?_⟩
    intro k element i helement hi
    exact hmatched k element i _ helement hi ((hat hi _).mpr rfl)

/-- The search fits the elements to the positions of an assignment. -/
theorem fitting_iff_assigns {found : List Bindings} :
    Selection.Fitting .loose (fun (element : Pattern) i => element.match? oracle (candidate m i).1)
        p.elements m.components.length ps found ↔
      p.Assigns oracle m ps found := by
  constructor
  · intro h
    obtain ⟨hps, hfound, hmatched⟩ := (meets_iff h.in_range).mp h.meets
    exact ⟨hps, hfound, h.injective, h.in_range, hmatched, coherent_flatMap_iff.mp h.coherent⟩
  · intro h
    exact ⟨h.injective, h.in_range, by simp, by simp, (meets_iff h.in_range).mpr
      ⟨h.length_positions, h.length_found, h.matched⟩, coherent_flatMap_iff.mpr h.agreeing⟩

/-- At every place stand an element, the position of its component, and what it finds there. -/
theorem Assigns.exists_at {found : List Bindings} (h : p.Assigns oracle m ps found) {k : Nat}
    (hk : k < p.elements.length) :
    ∃ element i b, p.elements[k]? = some element ∧ ps[k]? = some i ∧ found[k]? = some b ∧
      (candidate m i).1 ∈ m.components ∧
      element.match? oracle (candidate m i).1 = some b := by
  have hposition : k < ps.length := h.length_positions ▸ hk
  have hplace : k < found.length := h.length_found ▸ hk
  have helement := List.getElem?_eq_getElem hk
  have hi := List.getElem?_eq_getElem hposition
  have hcomponent : m.components[ps[k]]? = some (candidate m ps[k]).1 := by
    simp [candidate, List.getElem?_eq_getElem (h.in_range _ (List.getElem_mem hposition))]
  have hb := List.getElem?_eq_getElem hplace
  exact ⟨_, _, _, helement, hi, hb, List.mem_of_getElem? hcomponent,
    (h.matched k _ _ _ helement hi hcomponent).trans hb⟩

/-- Every element finds bindings in the component it goes to. -/
theorem Assigns.exists_found {found : List Bindings} (h : p.Assigns oracle m ps found)
    {element : Pattern} (helement : element ∈ p.elements) :
    ∃ b ∈ found, ∃ component, element.match? oracle component = some b := by
  obtain ⟨k, hk, rfl⟩ := List.mem_iff_getElem.mp helement
  obtain ⟨element, i, b, helement, -, hb, -, hmatched⟩ := h.exists_at hk
  obtain rfl := (List.getElem_eq_iff hk).mpr helement
  exact ⟨b, List.mem_of_getElem? hb, _, hmatched⟩

/-- Bindings that are found come from a component of the mixture. -/
theorem Assigns.exists_of_mem_found {found : List Bindings} (h : p.Assigns oracle m ps found)
    {b : Bindings} (hb : b ∈ found) :
    ∃ element ∈ p.elements, ∃ component ∈ m.components,
      element.match? oracle component = some b := by
  obtain ⟨k, hk, rfl⟩ := List.mem_iff_getElem.mp hb
  obtain ⟨element, i, b, helement, -, hb, hcomponent, hmatched⟩ :=
    h.exists_at (h.length_found ▸ hk)
  obtain rfl := (List.getElem_eq_iff hk).mpr hb
  exact ⟨element, List.mem_of_getElem? helement, _, hcomponent, hmatched⟩

/-- Every component that is taken is matched by an element. -/
theorem Assigns.exists_element {found : List Bindings} (h : p.Assigns oracle m ps found) {i : Nat}
    (hi : i ∈ ps) :
    ∃ element ∈ p.elements, ∃ b, element.match? oracle (candidate m i).1 = some b := by
  obtain ⟨k, hk, rfl⟩ := List.mem_iff_getElem.mp hi
  obtain ⟨element, i, b, helement, hi, -, -, hmatched⟩ :=
    h.exists_at (h.length_positions ▸ hk)
  obtain rfl := (List.getElem_eq_iff hk).mpr hi
  exact ⟨element, List.mem_of_getElem? helement, b, hmatched⟩

/-- What is taken and what is left over make up the mixture. -/
theorem perm_taken_without (hinjective : ps.Nodup) (hrange : ∀ i ∈ ps, i < m.components.length) :
    (ps.map (fun i => (candidate m i).1) ++ (m.without ps).components).Perm m.components :=
  Selection.perm_taken_others default hinjective hrange

/-- What matching finds is the least assignment. -/
theorem match?_eq_some_iff {result : MixtureMatch} :
    p.match? oracle m = some result ↔
      ∃ ps found, Selection.Least (fun qs => ∃ found, p.Assigns oracle m qs found) ps ∧
        p.Assigns oracle m ps found ∧
        result.bound.Gathers (found.flatMap Roster.entries) ∧
        result.leftovers = m.without ps := by
  simp only [match?_eq_map, Option.map_eq_some_iff, Prod.exists,
    Selection.find?_absorbFound_eq_some_iff, fitting_iff_assigns]
  constructor
  · intro h
    obtain ⟨ps, bound, ⟨hleast, found, hfound, hbound⟩, rfl⟩ := h
    exact ⟨ps, found, hleast, hfound, hbound, rfl⟩
  · intro h
    obtain ⟨ps, found, hleast, hfound, hbound, hleftovers⟩ := h
    refine ⟨ps, result.bound, ⟨hleast, found, hfound, hbound⟩, ?_⟩
    rw [← hleftovers]

theorem match?_eq_none_iff :
    p.match? oracle m = none ↔ ¬ ∃ ps found, p.Assigns oracle m ps found := by
  simp only [match?_eq_map, Option.map_eq_none_iff, Selection.find?_absorbFound_eq_none_iff,
    fitting_iff_assigns]

/-- A mixture pattern matches nothing exactly when there is no assignment. Otherwise it binds
what the elements find at the least assignment, and leaves the other components over. -/
theorem match?_eq_least_assignment (oracle : Oracle) (p : MixturePattern) (m : Mixture) :
    (p.match? oracle m = none ↔ ¬ ∃ ps found, p.Assigns oracle m ps found) ∧
      ∀ result, p.match? oracle m = some result ↔
        ∃ ps found, Selection.Least (fun qs => ∃ found, p.Assigns oracle m qs found) ps ∧
          p.Assigns oracle m ps found ∧
          result.bound.entries = (found.flatMap Roster.entries).eraseDups ∧
          result.leftovers = m.without ps :=
  ⟨match?_eq_none_iff, fun _ => match?_eq_some_iff⟩

end MixturePattern

end Simmer
