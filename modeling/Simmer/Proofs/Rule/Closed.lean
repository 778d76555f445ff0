import Simmer.Rule.Apply
import Simmer.Proofs.Mixture.Assignment
import Simmer.Proofs.Pattern.Matching
import Simmer.Proofs.Template

/-!
Closed rules apply without a fault. What the left side of a rule supplies is covered by each
of its matches, and a rule is closed when its left side supplies all that its right side
mentions; so whatever a rule is applied to, the application comes to its end.
-/
namespace Simmer

namespace Clause

variable {oracle : Oracle} {leftovers : List String} {name : String}

theorem collect_cons (collector : Collector) (collectors : List Collector) (bound : Bindings) :
    collect oracle leftovers (collector :: collectors) bound =
      collect oracle leftovers collectors (bound.insert collector.name
        (.collected (leftovers.filter (Slot.allows oracle collector.qualifier)))) := rfl

theorem collected_of_collected {collectors : List Collector} {bound : Bindings}
    (h : ∃ values, (name, Binding.collected values) ∈ bound.entries) :
    ∃ values, (name, Binding.collected values) ∈
      (collect oracle leftovers collectors bound).entries := by
  induction collectors generalizing bound with
  | nil => exact h
  | cons collector collectors ih =>
    rw [collect_cons]
    apply ih
    obtain ⟨values, hmem⟩ := h
    by_cases hname : name = collector.name
    · exact ⟨_, Roster.mem_entries_insert.mpr (by rw [if_pos hname])⟩
    · exact ⟨values, Roster.mem_entries_insert.mpr (by rw [if_neg hname]; exact hmem)⟩

theorem collected_of_declared {collectors : List Collector} {collector : Collector}
    (h : collector ∈ collectors) (bound : Bindings) :
    ∃ values, (collector.name, Binding.collected values) ∈
      (collect oracle leftovers collectors bound).entries := by
  induction collectors generalizing bound with
  | nil => simp at h
  | cons first collectors ih =>
    rw [collect_cons]
    rcases List.mem_cons.mp h with rfl | hrest
    · apply collected_of_collected
      exact ⟨_, Roster.mem_entries_insert.mpr (by rw [if_pos rfl])⟩
    · exact ih hrest _

/-- Collecting changes nothing under names that are not declared. -/
theorem mem_collect_of_undeclared {collectors : List Collector} {bound : Bindings}
    {value : Binding} (hmem : (name, value) ∈ bound.entries)
    (hnew : ∀ collector ∈ collectors, name ≠ collector.name) :
    (name, value) ∈ (collect oracle leftovers collectors bound).entries := by
  induction collectors generalizing bound with
  | nil => exact hmem
  | cons collector collectors ih =>
    rw [collect_cons]
    refine ih (Roster.mem_entries_insert.mpr ?_) fun other hother =>
      hnew other (List.mem_cons_of_mem _ hother)
    rw [if_neg (hnew collector List.mem_cons_self)]
    exact hmem

variable {c : Clause} {component : Component} {ps : List Nat}

/-- A placement lands every variable of the body somewhere. -/
theorem exists_mem_landings (h : c.Places oracle component ps) {token : Token}
    (htoken : token ∈ c.body) (hvar : token.isVariable = true) :
    ∃ constant, (token.name, Binding.single constant) ∈ c.landings component ps := by
  obtain ⟨k, hk⟩ := List.mem_iff_getElem?.mp htoken
  have hlt : k < ps.length := by
    rw [h.length_eq]
    exact (List.getElem?_eq_some_iff.mp hk).1
  have hi : ps[k]? = some ps[k] := List.getElem?_eq_getElem hlt
  obtain ⟨constant, hconstant⟩ : ∃ constant, component.tokens[ps[k]]? = some constant :=
    ⟨_, List.getElem?_eq_getElem (h.in_range _ (List.getElem_mem hlt))⟩
  refine ⟨constant, List.mem_flatMap.mpr ⟨(token, ps[k]), ?_, ?_⟩⟩
  · exact List.mem_of_getElem? (List.getElem?_zip_eq_some.mpr ⟨hk, hi⟩)
  · simp [hvar, hconstant]

/-- A match covers what the clause supplies. -/
theorem covers_of_match? {b : Bindings} (h : c.match? oracle component = some b) {t : Token}
    (hvar : t.isVariable = true)
    (hsupplied : (if t.isCollector then c.declares t.name
      else c.boundNames.contains t.name) = true) : b.Covers t := by
  obtain ⟨ps, bound, hleast, hbound, rfl⟩ := match?_eq_some_iff_collect.mp h
  by_cases ht : t.isCollector = true
  · rw [if_pos ht] at hsupplied
    obtain ⟨collector, hcollector, hname⟩ := List.any_eq_true.mp hsupplied
    rw [Bindings.covers_of_collector ht, ← of_decide_eq_true hname]
    exact collected_of_declared hcollector bound
  · have hdifferent : ∀ collector ∈ c.collectors, t.name ≠ collector.name := by
      intro collector _ hname
      exact ht (Token.isCollector_eq_of_name_eq hvar rfl hname)
    rw [if_neg ht, List.contains_iff_mem, boundNames, List.mem_eraseDups, List.mem_append]
      at hsupplied
    rcases hsupplied with hcollector | hbody
    · obtain ⟨collector, hmem, hname⟩ := List.mem_map.mp hcollector
      exact absurd hname.symm (hdifferent collector hmem)
    · obtain ⟨token, htoken, hname⟩ := List.mem_map.mp hbody
      obtain ⟨htoken, htokenvar⟩ := List.mem_filter.mp htoken
      obtain ⟨constant, hlanded⟩ := exists_mem_landings hleast.holds htoken htokenvar
      rw [hname] at hlanded
      rw [Bindings.covers_of_not_collector ht]
      exact ⟨constant, mem_collect_of_undeclared (hbound.mem_iff.mpr hlanded) hdifferent⟩

end Clause

theorem Pattern.covers_of_match? {oracle : Oracle} {component : Component} {p : Pattern}
    {b : Bindings} (h : p.match? oracle component = some b) {t : Token}
    (hvar : t.isVariable = true) (hsupplied : p.supplies t = true) : b.Covers t :=
  Clause.covers_of_match? (Pattern.match?_eq_some_iff.mp h).2 hvar hsupplied

namespace MixturePattern

variable {oracle : Oracle} {m : Mixture} {p : MixturePattern}

/-- What some element supplies is supplied by the pattern, and by nothing else. -/
theorem supplies_iff {t : Token} :
    p.supplies t = true ↔ ∃ element ∈ p.elements, element.supplies t = true := by
  unfold supplies Pattern.supplies
  by_cases ht : t.isCollector = true
  · simp [ht, declares]
  · simp [ht, boundNames]

theorem covers_of_match? {result : MixtureMatch} (h : p.match? oracle m = some result)
    {t : Token} (hvar : t.isVariable = true) (hsupplied : p.supplies t = true) :
    result.bound.Covers t := by
  obtain ⟨ps, found, -, hassigns, hbound, -⟩ := match?_eq_some_iff.mp h
  obtain ⟨element, helement, hsupplies⟩ := supplies_iff.mp hsupplied
  obtain ⟨b, hb, component, hmatch⟩ := hassigns.exists_found helement
  have hcovers : b.Covers t := Pattern.covers_of_match? hmatch hvar hsupplies
  apply hcovers.mono
  intro entry hentry
  exact hbound.mem_iff.mpr (List.mem_flatMap.mpr ⟨b, hb, hentry⟩)

end MixturePattern

namespace ComponentRule

/-- The check accepts the two sides of a rule, and of no other one. -/
theorem of?_eq_ok_iff {lhs : Pattern} {rhs : Template} {r : ComponentRule} :
    of? lhs rhs = .ok r ↔ r.lhs = lhs ∧ r.rhs = rhs := by
  unfold of?
  constructor
  · intro h
    split at h
    · obtain rfl := Except.ok.inj h
      exact ⟨rfl, rfl⟩
    · cases h
  · intro h
    obtain ⟨rfl, rfl⟩ := h
    split
    · rfl
    · rename_i t hfind
      have hsupplied := r.closed t (List.mem_of_find?_eq_some hfind)
      have hmissing := List.find?_some hfind
      simp [hsupplied] at hmissing

/-- A match covers every variable of the right side. -/
theorem covers {oracle : Oracle} {r : ComponentRule} {c : Component} {bound : Bindings}
    (h : r.lhs.match? oracle c = some bound) {t : Token} (ht : t ∈ r.rhs.tokens)
    (hvar : t.isVariable = true) : bound.Covers t := by
  obtain ⟨mention, hmention, hname⟩ := Template.exists_mention ht hvar
  have hmvar := Template.isVariable_of_mem_mentions hmention
  exact (Bindings.covers_congr hmvar hvar hname).mp
    (Pattern.covers_of_match? h hmvar (r.closed mention hmention))

theorem outcome_tryApply (oracle : Oracle) (r : ComponentRule) (c : Component) :
    (r.tryApply oracle c).outcome =
      match r.lhs.match? oracle c with
      | none => .ok none
      | some bound => (r.rhs.instantiate bound).map some := by
  simp only [tryApply, Run.outcome_bind, Run.outcome_lift, Pattern.value_probe]
  cases r.lhs.match? oracle c with
  | none => rfl
  | some bound =>
    simp only [Except.bind, Run.outcome_bind, Run.outcome_ofExcept]
    cases r.rhs.instantiate bound with
    | error fault => rfl
    | ok out => rfl

theorem tryApply_eq_none_iff {oracle : Oracle} {r : ComponentRule} {c : Component} :
    (r.tryApply oracle c).outcome = .ok none ↔ r.lhs.match? oracle c = none := by
  rw [outcome_tryApply]
  cases r.lhs.match? oracle c with
  | none => simp
  | some bound => simp [Outcome.map_eq_ok_iff]

theorem tryApply_eq_some_iff {oracle : Oracle} {r : ComponentRule} {c out : Component} :
    (r.tryApply oracle c).outcome = .ok (some out) ↔
      ∃ bound, r.lhs.match? oracle c = some bound ∧ r.rhs.instantiate bound = .ok out := by
  rw [outcome_tryApply]
  cases r.lhs.match? oracle c with
  | none => simp
  | some bound => simp [Outcome.map_eq_ok_iff]

/-- An application instantiates the right side with the match, or leaves the component. -/
theorem outcome_apply (oracle : Oracle) (r : ComponentRule) (c : Component) :
    (r.apply oracle c).outcome =
      match r.lhs.match? oracle c with
      | none => .ok c
      | some bound => r.rhs.instantiate bound := by
  rw [apply, Run.outcome_bind, outcome_tryApply]
  cases r.lhs.match? oracle c with
  | none => rfl
  | some bound =>
    cases hout : r.rhs.instantiate bound with
    | error fault => simp only [hout]; rfl
    | ok out =>
      by_cases hsame : out = c
      · simp only [hout, Except.map, Except.bind, if_pos hsame, Run.outcome_pure]
      · simp only [hout, Except.map, Except.bind, if_neg hsame, Run.outcome_bind,
          Run.outcome_tell, Run.outcome_pure]

theorem exists_tryApply (oracle : Oracle) (r : ComponentRule) (c : Component) :
    ∃ out, (r.tryApply oracle c).outcome = .ok out := by
  rw [outcome_tryApply]
  cases hmatch : r.lhs.match? oracle c with
  | none => exact ⟨none, rfl⟩
  | some bound =>
    obtain ⟨out, hout⟩ := Template.exists_instantiate fun t ht hvar => r.covers hmatch ht hvar
    exact ⟨some out, by simp only [hout]; rfl⟩

theorem exists_apply (oracle : Oracle) (r : ComponentRule) (c : Component) :
    ∃ out, (r.apply oracle c).outcome = .ok out := by
  rw [outcome_apply]
  cases hmatch : r.lhs.match? oracle c with
  | none => exact ⟨c, rfl⟩
  | some bound => exact Template.exists_instantiate fun t ht hvar => r.covers hmatch ht hvar

/-- What an application of the rule makes of a component. -/
def image (oracle : Oracle) (r : ComponentRule) (c : Component) : Component :=
  match (r.apply oracle c).outcome with
  | .ok out => out
  | .error _ => c

theorem outcome_eq_image (oracle : Oracle) (r : ComponentRule) (c : Component) :
    (r.apply oracle c).outcome = .ok (r.image oracle c) := by
  obtain ⟨out, hout⟩ := r.exists_apply oracle c
  rw [image, hout]

end ComponentRule

namespace MixtureRule

/-- The check accepts the two sides of a rule, and of no other one. -/
theorem of?_eq_ok_iff {reactants : MixturePattern} {products : List Template} {r : MixtureRule} :
    of? reactants products = .ok r ↔ r.reactants = reactants ∧ r.products = products := by
  unfold of?
  constructor
  · intro h
    split at h
    · obtain rfl := Except.ok.inj h
      exact ⟨rfl, rfl⟩
    · cases h
  · intro h
    obtain ⟨rfl, rfl⟩ := h
    split
    · rfl
    · rename_i t hfind
      have hsupplied := r.closed t (List.mem_of_find?_eq_some hfind)
      have hmissing := List.find?_some hfind
      simp [hsupplied] at hmissing

/-- A match covers every variable of every product. -/
theorem covers {oracle : Oracle} {r : MixtureRule} {m : Mixture} {found : MixtureMatch}
    (h : r.reactants.match? oracle m = some found) {product : Template}
    (hproduct : product ∈ r.products) {t : Token} (ht : t ∈ product.tokens)
    (hvar : t.isVariable = true) : found.bound.Covers t := by
  obtain ⟨mention, hmention, hname⟩ := Template.exists_mention ht hvar
  have hmvar := Template.isVariable_of_mem_mentions hmention
  have hsupplied := r.closed mention (List.mem_flatMap.mpr ⟨product, hproduct, hmention⟩)
  exact (Bindings.covers_congr hmvar hvar hname).mp
    (MixturePattern.covers_of_match? h hmvar hsupplied)

theorem outcome_tryApply (oracle : Oracle) (r : MixtureRule) (m : Mixture) :
    (r.tryApply oracle m).outcome =
      match r.reactants.match? oracle m with
      | none => .ok none
      | some found => (r.products.mapM (Template.instantiate found.bound)).map fun products =>
          some ⟨products ++ found.leftovers.components⟩ := by
  simp only [tryApply, Run.outcome_bind, Run.outcome_lift]
  rw [show (r.reactants.probe oracle m).value = r.reactants.match? oracle m from rfl]
  cases r.reactants.match? oracle m with
  | none => rfl
  | some found =>
    simp only [Except.bind, Run.outcome_bind, Run.outcome_ofExcept]
    cases r.products.mapM (Template.instantiate found.bound) with
    | error fault => rfl
    | ok products => rfl

theorem tryApply_eq_none_iff {oracle : Oracle} {r : MixtureRule} {m : Mixture} :
    (r.tryApply oracle m).outcome = .ok none ↔ r.reactants.match? oracle m = none := by
  rw [outcome_tryApply]
  cases r.reactants.match? oracle m with
  | none => simp
  | some found => simp [Outcome.map_eq_ok_iff]

theorem tryApply_eq_some_iff {oracle : Oracle} {r : MixtureRule} {m out : Mixture} :
    (r.tryApply oracle m).outcome = .ok (some out) ↔
      ∃ found products, r.reactants.match? oracle m = some found ∧
        r.products.mapM (Template.instantiate found.bound) = .ok products ∧
        ⟨products ++ found.leftovers.components⟩ = out := by
  rw [outcome_tryApply]
  cases r.reactants.match? oracle m with
  | none => simp
  | some found => simp [Outcome.map_eq_ok_iff]

/-- An application puts the products in front of what is left over, or leaves the mixture. -/
theorem outcome_apply (oracle : Oracle) (r : MixtureRule) (m : Mixture) :
    (r.apply oracle m).outcome =
      match r.reactants.match? oracle m with
      | none => .ok m
      | some found => (r.products.mapM (Template.instantiate found.bound)).map fun products =>
          ⟨products ++ found.leftovers.components⟩ := by
  rw [apply, Run.outcome_bind, outcome_tryApply]
  cases r.reactants.match? oracle m with
  | none => rfl
  | some found =>
    cases hout : r.products.mapM (Template.instantiate found.bound) with
    | error fault => simp only [hout]; rfl
    | ok products =>
      by_cases hsame : Mixture.same ⟨products ++ found.leftovers.components⟩ m = true
      · simp only [hout, Except.map, Except.bind, if_pos hsame, Run.outcome_pure]
      · simp only [hout, Except.map, Except.bind, if_neg hsame, Run.outcome_bind,
          Run.outcome_tell, Run.outcome_pure]

/-- The products of a match can be made. -/
theorem exists_products {oracle : Oracle} {r : MixtureRule} {m : Mixture} {found : MixtureMatch}
    (h : r.reactants.match? oracle m = some found) :
    ∃ products, r.products.mapM (Template.instantiate found.bound) = .ok products :=
  Outcome.exists_mapM fun _ hproduct =>
    Template.exists_instantiate fun _ ht hvar => r.covers h hproduct ht hvar

theorem exists_tryApply (oracle : Oracle) (r : MixtureRule) (m : Mixture) :
    ∃ out, (r.tryApply oracle m).outcome = .ok out := by
  rw [outcome_tryApply]
  cases hmatch : r.reactants.match? oracle m with
  | none => exact ⟨none, rfl⟩
  | some found =>
    obtain ⟨products, hproducts⟩ := exists_products hmatch
    exact ⟨some ⟨products ++ found.leftovers.components⟩, by simp only [hproducts]; rfl⟩

theorem exists_apply (oracle : Oracle) (r : MixtureRule) (m : Mixture) :
    ∃ out, (r.apply oracle m).outcome = .ok out := by
  rw [outcome_apply]
  cases hmatch : r.reactants.match? oracle m with
  | none => exact ⟨m, rfl⟩
  | some found =>
    obtain ⟨products, hproducts⟩ := exists_products hmatch
    exact ⟨⟨products ++ found.leftovers.components⟩, by simp only [hproducts]; rfl⟩

end MixtureRule

namespace Rule

theorem exists_applyComponent (oracle : Oracle) (c : Component) (r : Rule) :
    ∃ out, (r.applyComponent oracle c).outcome = .ok out := by
  cases r with
  | component r => exact r.exists_apply oracle c
  | mixture r => exact ⟨c, rfl⟩

/-- A component rule applies to a mixture by applying to each of its components. -/
theorem outcome_applyMixture_component (oracle : Oracle) (r : ComponentRule) (m : Mixture) :
    ((component r).applyMixture oracle m).outcome =
      .ok ⟨m.components.map (r.image oracle)⟩ := by
  have hall : (m.components.mapM fun c => (r.apply oracle c).outcome) =
      .ok (m.components.map (r.image oracle)) := by
    simp only [ComponentRule.outcome_eq_image]
    exact List.mapM_pure
  simp only [applyMixture, Run.outcome_bind, Run.outcome_mapM, Run.outcome_pure, hall]
  rfl

theorem exists_applyMixture (oracle : Oracle) (m : Mixture) (r : Rule) :
    ∃ out, (r.applyMixture oracle m).outcome = .ok out := by
  cases r with
  | component r => exact ⟨_, outcome_applyMixture_component oracle r m⟩
  | mixture r => exact r.exists_apply oracle m

end Rule

end Simmer
