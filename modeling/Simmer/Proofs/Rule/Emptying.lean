import Simmer.Proofs.Printing.Rule
import Simmer.Proofs.Rule.Origin

/-!
Rules that leave nothing. A template without a constant and without a variable for one is made
of collectors, and stands for no token at all when each of them has stayed empty. This is the
only way in which a rule makes a component without a token.
-/
namespace Simmer

section Template

variable {b : Bindings} {c : Component}

/-- The token is a collector for which nothing was left. -/
def Token.Vanishes (b : Bindings) (t : Token) : Prop :=
  t.isCollector = true ∧ b.collected? t.name = some []

def Template.Vanishes (b : Bindings) (t : Template) : Prop :=
  ∀ token ∈ t.tokens, token.Vanishes b

theorem Token.resolve_eq_nil_iff {t : Token} : t.resolve b = .ok [] ↔ t.Vanishes b := by
  unfold resolve Vanishes
  by_cases hcollector : t.isCollector = true
  · cases b.collected? t.name <;> simp [hcollector]
  · by_cases hvar : t.isVariable = true
    · cases b.single? t.name <;> simp [hcollector, hvar]
    · simp [hcollector, hvar]

theorem Template.tokens_eq_nil_iff {t : Template} (h : t.instantiate b = .ok c) :
    c.tokens = [] ↔ t.Vanishes b := by
  obtain ⟨parts, hparts, hout⟩ := Outcome.bind_eq_ok_iff.mp h
  obtain rfl := Except.ok.inj hout
  rw [List.flatten_eq_nil_iff]
  constructor
  · intro hnil token htoken
    obtain ⟨part, hpart, hresolve⟩ := Outcome.exists_of_mem_of_mapM hparts htoken
    rw [hnil part hpart] at hresolve
    exact Token.resolve_eq_nil_iff.mp hresolve
  · intro hvanishes part hpart
    obtain ⟨token, htoken, hresolve⟩ := Outcome.exists_of_mem_mapM hparts hpart
    rw [Token.resolve_eq_nil_iff.mpr (hvanishes token htoken)] at hresolve
    exact (Except.ok.inj hresolve).symm

/-- A template that is not made of collectors alone always leaves a token. -/
theorem Template.not_vanishes {t : Template} {token : Token} (htoken : token ∈ t.tokens)
    (h : token.isCollector = false) : ¬ t.Vanishes b := by
  intro hvanishes
  have hcollector := (hvanishes token htoken).1
  rw [h] at hcollector
  cases hcollector

end Template

/-- The collectors of a clause keep what they let through of the tokens left over, and no other
name stands for a list. -/
theorem Clause.collected?_eq_some_iff {oracle : Oracle} {c : Clause} {component : Component}
    {ps : List Nat} {b : Bindings} (h : b.entries = c.yield oracle component ps) {name : String}
    {values : List String} :
    b.collected? name = some values ↔ ∃ collector ∈ c.collectors, collector.name = name ∧
      (component.without ps).filter (Slot.allows oracle collector.qualifier) = values := by
  rw [Bindings.collected?_eq_some_iff, h, yield, List.mem_append, List.mem_eraseDups]
  have hlanded : (name, .collected values) ∉ c.landings component ps := by
    intro hmem
    obtain ⟨⟨token, i⟩, -, hentry⟩ := List.mem_flatMap.mp hmem
    by_cases hvar : token.isVariable = true
    · simp only [hvar, if_true] at hentry
      obtain ⟨constant, -, heq⟩ := List.mem_map.mp hentry
      cases (Prod.mk.inj heq).2
    · simp [hvar] at hentry
  simp [hlanded]

/-- Every component has a token. -/
def Mixture.Solid (m : Mixture) : Prop :=
  ∀ c ∈ m.components, c.tokens ≠ []

namespace ComponentRule

variable {oracle : Oracle} {r : ComponentRule} {c out : Component}

/-- The rule matches the component and leaves nothing of it. -/
def Empties (oracle : Oracle) (r : ComponentRule) (c : Component) : Prop :=
  ∃ bound, r.lhs.match? oracle c = some bound ∧ r.rhs.Vanishes bound

theorem tokens_eq_nil_iff (hc : c.tokens ≠ []) (h : (r.apply oracle c).outcome = .ok out) :
    out.tokens = [] ↔ r.Empties oracle c := by
  rw [outcome_apply] at h
  unfold Empties
  cases hmatch : r.lhs.match? oracle c with
  | none =>
    rw [hmatch] at h
    obtain rfl := Except.ok.inj h
    simp [hc]
  | some bound =>
    rw [hmatch] at h
    rw [Template.tokens_eq_nil_iff h]
    simp

/-- A rule that was read empties a component when its template has collectors only, and the
least placement leaves none of them a token that it lets through. -/
theorem empties_iff {text : String} (hr : parse text = .ok r) :
    r.Empties oracle c ↔ ¬ r.lhs.Vetoed oracle c ∧
      ∃ ps, Selection.Least (r.lhs.clause.Places oracle c) ps ∧
        ∀ token ∈ r.rhs.tokens, token.isCollector = true ∧
          ∃ collector ∈ r.lhs.clause.collectors, collector.name = token.name ∧
            ∀ name ∈ c.without ps, Slot.allows oracle collector.qualifier name = false := by
  obtain ⟨lhs, -, -, hlhs, -⟩ := parse_eq_ok_iff.mp hr
  have hmatch := (Pattern.match?_of_parse hlhs oracle c).2
  constructor
  · rintro ⟨bound, hbound, hvanishes⟩
    obtain ⟨hveto, ps, hleast, hentries⟩ := (hmatch bound).mp hbound
    refine ⟨hveto, ps, hleast, fun token htoken => ?_⟩
    obtain ⟨hcollector, hnil⟩ := hvanishes token htoken
    obtain ⟨collector, hmem, hname, hfilter⟩ := (Clause.collected?_eq_some_iff hentries).mp hnil
    refine ⟨hcollector, collector, hmem, hname, fun name hleft => ?_⟩
    simpa using List.filter_eq_nil_iff.mp hfilter name hleft
  · rintro ⟨hveto, ps, hleast, hall⟩
    have hmatches := Pattern.matches_iff.mpr ⟨hveto, ps, hleast.holds⟩
    obtain ⟨bound, hbound⟩ := Option.isSome_iff_exists.mp (Pattern.isSome_match?_iff.mpr hmatches)
    obtain ⟨-, ps', hleast', hentries⟩ := (hmatch bound).mp hbound
    -- The matcher's placement is the given one, since there is one least placement.
    obtain rfl := hleast'.unique hleast
    refine ⟨bound, hbound, fun token htoken => ?_⟩
    obtain ⟨hcollector, collector, hmem, hname, hrefused⟩ := hall token htoken
    have hfilter : (c.without ps').filter (Slot.allows oracle collector.qualifier) = [] :=
      List.filter_eq_nil_iff.mpr fun name hleft => by simp [hrefused name hleft]
    exact ⟨hcollector, (Clause.collected?_eq_some_iff hentries).mpr ⟨collector, hmem, hname, hfilter⟩⟩

end ComponentRule

namespace MixtureRule

variable {oracle : Oracle} {r : MixtureRule} {m out : Mixture}

/-- The rule matches the mixture and leaves nothing of some product. -/
def Empties (oracle : Oracle) (r : MixtureRule) (m : Mixture) : Prop :=
  ∃ found, r.reactants.match? oracle m = some found ∧
    ∃ product ∈ r.products, product.Vanishes found.bound

theorem exists_tokens_eq_nil_iff (hm : m.Solid) (h : (r.apply oracle m).outcome = .ok out) :
    (∃ c ∈ out.components, c.tokens = []) ↔ r.Empties oracle m := by
  rw [outcome_apply] at h
  unfold Empties
  cases hmatch : r.reactants.match? oracle m with
  | none =>
    rw [hmatch] at h
    obtain rfl := Except.ok.inj h
    constructor
    · rintro ⟨c, hc, hnil⟩
      exact absurd hnil (hm c hc)
    · rintro ⟨found, hfound, -⟩
      cases hfound
  | some found =>
    rw [hmatch] at h
    obtain ⟨products, hproducts, rfl⟩ := Outcome.map_eq_ok_iff.mp h
    constructor
    · rintro ⟨c, hc, hnil⟩
      rcases List.mem_append.mp hc with hproduct | hleft
      · obtain ⟨t, ht, hinstance⟩ := Outcome.exists_of_mem_mapM hproducts hproduct
        exact ⟨found, rfl, t, ht, (Template.tokens_eq_nil_iff hinstance).mp hnil⟩
      · exact absurd hnil (hm c (MixturePattern.leftovers_match?_subset hmatch hleft))
    · rintro ⟨found', hfound, t, ht, hvanishes⟩
      obtain rfl := Option.some.inj hfound
      obtain ⟨c, hc, hinstance⟩ := Outcome.exists_of_mem_of_mapM hproducts ht
      exact ⟨c, List.mem_append_left _ hc, (Template.tokens_eq_nil_iff hinstance).mpr hvanishes⟩

theorem not_solid_iff (hm : m.Solid) (h : (r.apply oracle m).outcome = .ok out) :
    ¬ out.Solid ↔ r.Empties oracle m := by
  rw [← exists_tokens_eq_nil_iff hm h, Mixture.Solid]
  simp only [not_forall, not_not, exists_prop]

end MixtureRule

namespace Rule

/-- The rule empties no component that has a token, and nothing in a mixture of such ones. -/
def Spares (oracle : Oracle) : Rule → Prop
  | component r => ∀ c, c.tokens ≠ [] → ¬ r.Empties oracle c
  | mixture r => ∀ m, m.Solid → ¬ r.Empties oracle m

/-- A rule spares every component if each of its templates has something else than collectors. -/
theorem spares_of_templates {rule : Rule} (oracle : Oracle)
    (h : ∀ t ∈ rule.templates, ∃ token ∈ t.tokens, token.isCollector = false) :
    rule.Spares oracle := by
  cases rule with
  | component r =>
    rintro c - ⟨bound, -, hvanishes⟩
    obtain ⟨token, htoken, hcollector⟩ := h r.rhs List.mem_cons_self
    exact Template.not_vanishes htoken hcollector hvanishes
  | mixture r =>
    rintro m - ⟨found, -, product, hproduct, hvanishes⟩
    obtain ⟨token, htoken, hcollector⟩ := h product hproduct
    exact Template.not_vanishes htoken hcollector hvanishes

end Rule

end Simmer
