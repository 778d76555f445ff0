import Simmer.Proofs.Bindings
import Simmer.Proofs.Grammar.Pattern
import Simmer.Proofs.Pattern.Search
import Simmer.Proofs.Selection.Agreement
import Simmer.Proofs.Selection.Sieve

/-!
What a pattern matches. A placement sends the tokens of a body to positions of a component
where they fit, and one name to equal texts only. Matching a clause finds the least placement
in the lexicographic order of positions and nothing else: its bindings are the variables in
the order of their first occurrence, and then the collectors with the tokens left over.
-/
namespace Simmer

/-- Whether a token of a pattern may stand for the constant, categories aside. -/
def Token.Admits (oracle : Oracle) (constant : String) : Token → Prop
  | .constant name => name = constant
  | .var _ _ none => True
  | .var _ _ (some condition) => condition.satisfiedBy (oracle.tagsOf constant) = true

/-- The tokens at the positions that are not listed. -/
def Component.without (c : Component) (ps : List Nat) : List String :=
  (c.tokens.zipIdx.filter fun (_, i) => !ps.contains i).map Prod.fst

namespace Clause

/-- The variables of the body with the tokens at their positions, one entry for each
occurrence. -/
def landings (c : Clause) (component : Component) (ps : List Nat) : List (String × Binding) :=
  (c.body.zip ps).flatMap fun (token, i) =>
    if token.isVariable then
      component.tokens[i]?.toList.map fun constant => (token.name, .single constant)
    else []

/-- Every token of the body has the category of the token at its position, and admits it. -/
def Fits (oracle : Oracle) (c : Clause) (component : Component) (ps : List Nat) : Prop :=
  ∀ (k : Nat) token i constant, c.body[k]? = some token → ps[k]? = some i →
    component.tokens[i]? = some constant →
      token.category oracle (k + 1 == c.body.length) =
          .ofConstant oracle constant (i + 1 == component.tokens.length) ∧
        token.Admits oracle constant

/-- The positions at which the tokens of the body may be placed, each at its own. -/
structure Places (oracle : Oracle) (c : Clause) (component : Component) (ps : List Nat) :
    Prop where
  length_eq : ps.length = c.body.length
  injective : ps.Nodup
  in_range : ∀ i ∈ ps, i < component.tokens.length
  fits : c.Fits oracle component ps
  consistent : Roster.Coherent (c.landings component ps)
  increasing : c.strictness = .ordered → ps.Pairwise (· < ·)
  consecutive : c.strictness = .contiguous → ps.IsChain fun i j => j = i + 1

/-- What a placement binds: each variable once, and each collector to what its qualifier lets
through of the tokens left over. -/
def yield (oracle : Oracle) (c : Clause) (component : Component) (ps : List Nat) :
    List (String × Binding) :=
  (c.landings component ps).eraseDups ++ c.collectors.map fun collector =>
    (collector.name,
      .collected ((component.without ps).filter (Slot.allows oracle collector.qualifier)))

end Clause

namespace Component

/-- The token at a position as a target. -/
def target (oracle : Oracle) (c : Component) (i : Nat) : Target :=
  ⟨c.tokens.getD i "", i, .ofConstant oracle (c.tokens.getD i "") (i + 1 == c.tokens.length)⟩

theorem targets_eq_map_range (oracle : Oracle) (c : Component) :
    c.targets oracle = (List.range c.tokens.length).map (c.target oracle) := by
  unfold targets
  rw [Selection.zipIdx_eq_map_range c.tokens "", List.map_map]
  rfl

theorem target_injective (oracle : Oracle) (c : Component) :
    Function.Injective (c.target oracle) :=
  fun _ _ h => congrArg Target.index h

theorem without_eq_others (c : Component) (ps : List Nat) :
    c.without ps = Selection.others ps c.tokens := rfl

/-- What is not placed, from the targets that are. -/
theorem map_name_unplaced (oracle : Oracle) (c : Component) (ps : List Nat) :
    ((c.targets oracle).filter fun target =>
        !(ps.map (c.target oracle)).contains target).map Target.name = c.without ps := by
  rw [targets_eq_map_range, Selection.filter_not_contains_map (c.target_injective oracle),
    without_eq_others, Selection.others, Selection.sieve_eq_map_range _ _ "", List.map_map]
  rfl

end Component

namespace Slot

/-- What the variable of a slot stands for, if it is one. -/
def binds (token : Token) (constant : String) : Bindings :=
  if token.isVariable then .one token.name (.single constant) else .empty

def found? (oracle : Oracle) (slot : Slot) (target : Target) : Option Bindings :=
  if slot.fits oracle target then some (binds slot.token target.name) else none

theorem accept_eq_absorbFound (oracle : Oracle) :
    accept oracle = Selection.absorbFound (found? oracle) := by
  funext bound slot target
  simp only [accept, Selection.absorbFound, found?]
  by_cases hfits : slot.fits oracle target = true
  · by_cases hvar : slot.token.isVariable = true
    · simp [hfits, hvar, binds, Bindings.bind?_eq_absorb]
    · simp [hfits, hvar, binds, Roster.agrees_empty, Roster.absorb_empty]
  · simp [hfits]

theorem fits_iff (oracle : Oracle) (slot : Slot) (target : Target) :
    slot.fits oracle target = true ↔
      slot.category = target.category ∧ slot.token.Admits oracle target.name := by
  obtain ⟨token, category⟩ := slot
  cases token with
  | constant name => simp [fits, Token.Admits]
  | var cls digits qualifier =>
    cases qualifier with
    | none => simp [fits, Token.Admits, allows]
    | some condition => simp [fits, Token.Admits, allows]

theorem found?_eq_some_iff {oracle : Oracle} {slot : Slot} {target : Target} {r : Bindings} :
    found? oracle slot target = some r ↔
      (slot.category = target.category ∧ slot.token.Admits oracle target.name) ∧
        r = binds slot.token target.name := by
  unfold found?
  rw [← fits_iff]
  by_cases hfits : slot.fits oracle target = true
  · simp [hfits, eq_comm]
  · simp [hfits]

end Slot

namespace Clause

variable {oracle : Oracle} {c : Clause} {component : Component} {ps : List Nat}

theorem getElem?_slots (oracle : Oracle) (c : Clause) (k : Nat) :
    (c.slots oracle)[k]? =
      c.body[k]?.map fun token => ⟨token, token.category oracle (k + 1 == c.body.length)⟩ := by
  simp only [slots, List.getElem?_map, List.getElem?_zipIdx, Option.map_map, Nat.zero_add]
  rfl

/-- The slots meet the targets at the positions exactly when every token fits. -/
theorem meets_iff (hrange : ∀ i ∈ ps, i < component.tokens.length) {found : List Bindings} :
    Selection.Meets (fun slot i => Slot.found? oracle slot (component.target oracle i))
        (c.slots oracle) ps found ↔
      ps.length = c.body.length ∧ c.Fits oracle component ps ∧
        found = List.zipWith (fun token i => Slot.binds token (component.tokens.getD i ""))
          c.body ps := by
  have hslots : (c.slots oracle).length = c.body.length := by simp [slots]
  constructor
  · intro h
    have hps : ps.length = c.body.length := h.length_members.trans hslots
    have hat : ∀ (k : Nat) token i, c.body[k]? = some token → ps[k]? = some i →
        ∃ r, found[k]? = some r ∧
          Slot.found? oracle ⟨token, token.category oracle (k + 1 == c.body.length)⟩
            (component.target oracle i) = some r := by
      intro k token i htoken hi
      have hk : k < found.length := by
        rw [h.length_found, hslots]
        exact (List.getElem?_eq_some_iff.mp htoken).1
      refine ⟨found[k], List.getElem?_eq_getElem hk, ?_⟩
      rw [h.found_at k _ i (by rw [getElem?_slots, htoken]; rfl) hi]
      exact List.getElem?_eq_getElem hk
    refine ⟨hps, ?_, ?_⟩
    · intro k token i constant htoken hi hconstant
      obtain ⟨r, -, hr⟩ := hat k token i htoken hi
      have hname : (component.target oracle i).name = constant := by
        simp [Component.target, List.getD, hconstant]
      have hfits := (Slot.found?_eq_some_iff.mp hr).1
      rw [hname] at hfits
      simpa [Component.target, List.getD, hconstant] using hfits
    · apply List.ext_getElem?
      intro k
      rw [List.getElem?_zipWith]
      by_cases hk : k < c.body.length
      · have htoken := List.getElem?_eq_getElem hk
        have hi : ps[k]? = some ps[k] := List.getElem?_eq_getElem (by omega)
        obtain ⟨r, hfound, hr⟩ := hat k _ _ htoken hi
        rw [htoken, hi, hfound, (Slot.found?_eq_some_iff.mp hr).2]
        rfl
      · rw [List.getElem?_eq_none (by rw [h.length_found, hslots]; omega),
          List.getElem?_eq_none (l := c.body) (by omega)]
  · intro h
    obtain ⟨hps, hfits, rfl⟩ := h
    refine ⟨hps.trans hslots.symm, by simp [hps, hslots], ?_⟩
    intro k slot i hslot hi
    rw [getElem?_slots, Option.map_eq_some_iff] at hslot
    obtain ⟨token, htoken, rfl⟩ := hslot
    have hlt : i < component.tokens.length := hrange i (List.mem_of_getElem? hi)
    have hconstant := List.getElem?_eq_getElem hlt
    rw [List.getElem?_zipWith, htoken, hi]
    apply Slot.found?_eq_some_iff.mpr
    refine ⟨?_, rfl⟩
    simpa [Component.target, List.getD, hconstant] using hfits k token i _ htoken hi hconstant

theorem flatMap_entries_zipWith (hrange : ∀ i ∈ ps, i < component.tokens.length) :
    (List.zipWith (fun token i => Slot.binds token (component.tokens.getD i ""))
      c.body ps).flatMap Roster.entries = c.landings component ps := by
  have hzip : List.zipWith (fun token i => Slot.binds token (component.tokens.getD i ""))
      c.body ps = (c.body.zip ps).map fun (token, i) =>
        Slot.binds token (component.tokens.getD i "") := List.map_uncurry_zip_eq_zipWith.symm
  unfold landings
  rw [hzip, List.flatMap_map]
  apply List.flatMap_congr
  intro pair hpair
  obtain ⟨token, i⟩ := pair
  have hi : i < component.tokens.length := hrange i (List.of_mem_zip hpair).2
  by_cases hvar : token.isVariable = true
  · simp [Slot.binds, hvar, Roster.one, List.getElem?_eq_getElem hi]
  · simp [Slot.binds, hvar, Roster.empty]

/-- The search fits the slots to the positions of a placement, where the variables of the body
find what they land on. -/
theorem fitting_iff_places {found : List Bindings} :
    Selection.Fitting c.strictness
        (fun slot i => Slot.found? oracle slot (component.target oracle i)) (c.slots oracle)
        component.tokens.length ps found ↔
      c.Places oracle component ps ∧
        found = List.zipWith (fun token i => Slot.binds token (component.tokens.getD i ""))
          c.body ps := by
  constructor
  · intro h
    obtain ⟨hlength, hfits, rfl⟩ := (meets_iff h.in_range).mp h.meets
    have hcoherent := h.coherent
    rw [flatMap_entries_zipWith h.in_range] at hcoherent
    exact ⟨⟨hlength, h.injective, h.in_range, hfits, hcoherent, h.increasing, h.consecutive⟩, rfl⟩
  · intro h
    obtain ⟨hplaces, rfl⟩ := h
    refine ⟨hplaces.injective, hplaces.in_range, hplaces.increasing, hplaces.consecutive, ?_, ?_⟩
    · exact (meets_iff hplaces.in_range).mpr ⟨hplaces.length_eq, hplaces.fits, rfl⟩
    · rw [flatMap_entries_zipWith hplaces.in_range]
      exact hplaces.consistent

/-- Every name that a placement binds is the name of a variable of the body. -/
theorem exists_of_mem_landings {name : String} {value : Binding}
    (h : (name, value) ∈ c.landings component ps) :
    ∃ token ∈ c.body, token.isVariable = true ∧ token.name = name := by
  obtain ⟨⟨token, i⟩, hpair, hentry⟩ := List.mem_flatMap.mp h
  by_cases hvar : token.isVariable = true
  · simp only [hvar, if_true] at hentry
    obtain ⟨constant, -, heq⟩ := List.mem_map.mp hentry
    exact ⟨token, (List.of_mem_zip hpair).1, hvar, congrArg Prod.fst heq⟩
  · simp [hvar] at hentry

theorem entries_collect (leftovers : List String) {collectors : List Collector}
    {bound : Bindings} (hdistinct : (collectors.map Collector.name).Nodup)
    (hnew : ∀ collector ∈ collectors, collector.name ∉ bound.names) :
    (collect oracle leftovers collectors bound).entries =
      bound.entries ++ collectors.map fun collector =>
        (collector.name,
          .collected (leftovers.filter (Slot.allows oracle collector.qualifier))) := by
  induction collectors generalizing bound with
  | nil => exact (List.append_nil _).symm
  | cons collector collectors ih =>
    obtain ⟨hfirst, hrest⟩ := List.nodup_cons.mp hdistinct
    have hinsert := Roster.entries_insert_of_new
      (.collected (leftovers.filter (Slot.allows oracle collector.qualifier)))
      (hnew collector List.mem_cons_self)
    have hnames : ∀ other ∈ collectors,
        other.name ∉ (bound.insert collector.name
          (.collected (leftovers.filter (Slot.allows oracle collector.qualifier)))).names := by
      intro other hother hmem
      rw [Roster.names, hinsert, List.map_append, List.mem_append] at hmem
      rcases hmem with hold | hnow
      · exact hnew other (List.mem_cons_of_mem _ hother) hold
      · have hname : other.name = collector.name := by simpa using hnow
        exact hfirst (hname ▸ List.mem_map_of_mem hother)
    have hcollect := ih hrest hnames
    rw [hinsert, List.append_assoc] at hcollect
    exact hcollect

theorem place?_eq_map (oracle : Oracle) (c : Clause) (component : Component) :
    c.place? oracle (component.targets oracle) =
      (Selection.find? c.strictness
        (Selection.absorbFound fun slot i => Slot.found? oracle slot (component.target oracle i))
        true (c.slots oracle) (List.range component.tokens.length) .empty).map
          fun (chosen, bound) => (chosen.map (component.target oracle), bound) := by
  rw [place?, Component.targets_eq_map_range, Selection.find?_map, Slot.accept_eq_absorbFound]
  rfl

/-- Placing a clause finds the least placement, and gathers what its variables stand for. -/
theorem find?_eq_some_iff_least {bound : Bindings} :
    Selection.find? c.strictness
        (Selection.absorbFound fun slot i => Slot.found? oracle slot (component.target oracle i))
        true (c.slots oracle) (List.range component.tokens.length) .empty = some (ps, bound) ↔
      Selection.Least (c.Places oracle component) ps ∧
        bound.Gathers (c.landings component ps) := by
  simp only [Selection.find?_absorbFound_eq_some_iff, fitting_iff_places, exists_and_left,
    exists_eq, and_true, and_assoc]
  constructor
  · intro h
    obtain ⟨hleast, hplaces, found, rfl, hbound⟩ := h
    rw [flatMap_entries_zipWith hplaces.in_range] at hbound
    exact ⟨hleast, hbound⟩
  · intro h
    obtain ⟨hleast, hbound⟩ := h
    refine ⟨hleast, hleast.holds, _, rfl, ?_⟩
    rw [flatMap_entries_zipWith hleast.holds.in_range]
    exact hbound

/-- The names of collectors stay apart from those that a placement binds. -/
theorem Separate.not_bound (hc : c.Separate) {bound : Bindings}
    (hbound : bound.Gathers (c.landings component ps)) :
    ∀ collector ∈ c.collectors, collector.name ∉ bound.names := by
  intro collector _ hmem
  obtain ⟨⟨name, value⟩, hentry, hname⟩ := List.mem_map.mp hmem
  obtain ⟨token, htoken, hvar, heq⟩ := exists_of_mem_landings (hbound.mem_iff.mp hentry)
  have hclass : token.isCollector = collector.token.isCollector :=
    Token.isCollector_eq_of_name_eq hvar rfl (heq.trans hname)
  have hcollector : collector.token.isCollector = true := rfl
  rw [hc.body_free token htoken, hcollector] at hclass
  exact absurd hclass (by decide)

theorem entries_of_placed (hc : c.Separate) {bound : Bindings}
    (hbound : bound.Gathers (c.landings component ps)) :
    (collect oracle (component.without ps) c.collectors bound).entries =
      c.yield oracle component ps := by
  rw [entries_collect _ hc.collectors_distinct (hc.not_bound hbound), yield, hbound]

/-- Matching a clause finds the least placement, gathers what its variables stand for, and
then binds the collectors. -/
theorem match?_eq_some_iff_collect {b : Bindings} :
    c.match? oracle component = some b ↔
      ∃ ps bound, Selection.Least (c.Places oracle component) ps ∧
        bound.Gathers (c.landings component ps) ∧
        collect oracle (component.without ps) c.collectors bound = b := by
  simp only [match?_eq_map_place?, place?_eq_map, Option.map_map, Option.map_eq_some_iff, Prod.exists,
    find?_eq_some_iff_least, Function.comp_apply, Component.map_name_unplaced, and_assoc]

/-- In a separate clause, a match binds what the least placement yields. -/
theorem match?_eq_some_iff (hc : c.Separate) {b : Bindings} :
    c.match? oracle component = some b ↔
      ∃ ps, Selection.Least (c.Places oracle component) ps ∧
        b.entries = c.yield oracle component ps := by
  rw [match?_eq_some_iff_collect]
  constructor
  · intro h
    obtain ⟨ps, bound, hleast, hbound, rfl⟩ := h
    exact ⟨ps, hleast, entries_of_placed hc hbound⟩
  · intro h
    obtain ⟨ps, hleast, hb⟩ := h
    obtain ⟨bound, hbound⟩ := Roster.exists_gathers hleast.holds.consistent
    exact ⟨ps, bound, hleast, hbound,
      Roster.eq_of_entries_eq ((entries_of_placed hc hbound).trans hb.symm)⟩

theorem match?_eq_none_iff :
    c.match? oracle component = none ↔ ¬ ∃ ps, c.Places oracle component ps := by
  simp only [match?_eq_map_place?, place?_eq_map, Option.map_eq_none_iff, Selection.find?_absorbFound_eq_none_iff,
    fitting_iff_places, exists_and_left, exists_eq, and_true]

end Clause

end Simmer
