import Simmer.Proofs.Rule.Closed

/-!
Where the tokens of a result come from. A match binds tokens of its target only, and leaves
the others over; a template adds its own constants and nothing else. So what a rule makes has
tokens of its target and constants of its templates.
-/
namespace Simmer

theorem flatMap_subset_iff {α β : Type} {f : α → List β} {xs : List α} {ys : List β} :
    xs.flatMap f ⊆ ys ↔ ∀ x ∈ xs, f x ⊆ ys := by
  constructor
  · intro h x hx y hy
    exact h (List.mem_flatMap.mpr ⟨x, hx, hy⟩)
  · intro h y hy
    obtain ⟨x, hx, hmem⟩ := List.mem_flatMap.mp hy
    exact h x hx hmem

theorem subset_flatMap_of_mem {α β : Type} {f : α → List β} {xs : List α} {x : α}
    (hx : x ∈ xs) : f x ⊆ xs.flatMap f :=
  fun _ hy => List.mem_flatMap.mpr ⟨x, hx, hy⟩

namespace Binding

def values : Binding → List String
  | single value => [value]
  | collected values => values

end Binding

/-- Everything that some name stands for. -/
def Bindings.values (b : Bindings) : List String :=
  b.entries.flatMap fun entry => entry.2.values

namespace Token

/-- The constant, if the token is one. -/
def constants : Token → List String
  | constant name => [name]
  | var .. => []

theorem mem_constants {t : Token} {name : String} : name ∈ t.constants ↔ t = constant name := by
  cases t with
  | constant other => simp [constants, eq_comm]
  | var cls digits q => simp [constants]

end Token

namespace Template

def constants (t : Template) : List String :=
  t.tokens.flatMap Token.constants

theorem mem_constants {t : Template} {name : String} :
    name ∈ t.constants ↔ Token.constant name ∈ t.tokens := by
  simp [constants, Token.mem_constants]

end Template

namespace Mixture

def tokens (m : Mixture) : List String :=
  m.components.flatMap Component.tokens

theorem tokens_subset {m : Mixture} {words : List String} :
    m.tokens ⊆ words ↔ ∀ c ∈ m.components, c.tokens ⊆ words :=
  flatMap_subset_iff

end Mixture

namespace Bindings

variable {b : Bindings} {words : List String}

theorem single?_eq_some_iff {name value : String} :
    b.single? name = some value ↔ (name, .single value) ∈ b.entries := by
  rw [← Roster.get?_eq_some_iff, single?]
  cases b.get? name with
  | none => simp
  | some binding => cases binding <;> simp

theorem collected?_eq_some_iff {name : String} {values : List String} :
    b.collected? name = some values ↔ (name, .collected values) ∈ b.entries := by
  rw [← Roster.get?_eq_some_iff, collected?]
  cases b.get? name with
  | none => simp
  | some binding => cases binding <;> simp

theorem values_subset : b.values ⊆ words ↔ ∀ entry ∈ b.entries, entry.2.values ⊆ words :=
  flatMap_subset_iff

theorem values_insert_subset {name : String} {value : Binding} (hb : b.values ⊆ words)
    (hvalue : value.values ⊆ words) : values (b.insert name value) ⊆ words := by
  rw [values_subset]
  intro entry hentry
  obtain ⟨other, v⟩ := entry
  have hmem := Roster.mem_entries_insert.mp hentry
  split at hmem
  · exact hmem ▸ hvalue
  · exact values_subset.mp hb _ hmem

end Bindings

namespace Component

theorem without_subset (c : Component) (ps : List Nat) : c.without ps ⊆ c.tokens := by
  intro token htoken
  obtain ⟨⟨name, i⟩, hmem, rfl⟩ := List.mem_map.mp htoken
  exact List.fst_mem_of_mem_zipIdx (List.mem_filter.mp hmem).1

end Component

namespace Clause

variable {oracle : Oracle} {c : Clause} {component : Component} {words : List String}

theorem values_collect_subset {leftovers : List String} {collectors : List Collector}
    {bound : Bindings} (hleftovers : leftovers ⊆ words) (hbound : bound.values ⊆ words) :
    (collect oracle leftovers collectors bound).values ⊆ words := by
  induction collectors generalizing bound with
  | nil => exact hbound
  | cons collector collectors ih =>
    rw [collect_cons]
    apply ih
    exact Bindings.values_insert_subset hbound fun value hvalue =>
      hleftovers (List.mem_filter.mp hvalue).1

/-- A variable of the body stands for a token of the component. -/
theorem values_subset_of_mem_landings {ps : List Nat} {entry : String × Binding}
    (h : entry ∈ c.landings component ps) : entry.2.values ⊆ component.tokens := by
  obtain ⟨⟨token, i⟩, -, hentry⟩ := List.mem_flatMap.mp h
  by_cases hvar : token.isVariable = true
  · simp only [hvar, if_true] at hentry
    obtain ⟨constant, hconstant, rfl⟩ := List.mem_map.mp hentry
    have hmem : constant ∈ component.tokens :=
      List.mem_of_getElem? (Option.mem_toList.mp hconstant)
    exact List.cons_subset.mpr ⟨hmem, List.nil_subset _⟩
  · simp [hvar] at hentry

theorem values_match?_subset {b : Bindings} (h : c.match? oracle component = some b) :
    b.values ⊆ component.tokens := by
  obtain ⟨ps, bound, -, hbound, rfl⟩ := match?_eq_some_iff_collect.mp h
  apply values_collect_subset (component.without_subset ps)
  rw [Bindings.values_subset]
  intro entry hentry
  exact values_subset_of_mem_landings (hbound.mem_iff.mp hentry)

end Clause

theorem Pattern.values_match?_subset {oracle : Oracle} {component : Component} {p : Pattern}
    {b : Bindings} (h : p.match? oracle component = some b) : b.values ⊆ component.tokens :=
  Clause.values_match?_subset (match?_eq_some_iff.mp h).2

namespace MixturePattern

variable {oracle : Oracle} {p : MixturePattern} {m : Mixture} {result : MixtureMatch}

theorem values_match?_subset (h : p.match? oracle m = some result) :
    result.bound.values ⊆ m.tokens := by
  obtain ⟨ps, found, -, hassigns, hbound, -⟩ := match?_eq_some_iff.mp h
  rw [Bindings.values_subset]
  intro entry hentry
  obtain ⟨b, hb, hmem⟩ := List.mem_flatMap.mp (hbound.mem_iff.mp hentry)
  obtain ⟨element, -, component, hcomponent, hmatch⟩ := hassigns.exists_of_mem_found hb
  have hvalues := Pattern.values_match?_subset hmatch
  exact List.Subset.trans (Bindings.values_subset.mp hvalues _ hmem)
    (subset_flatMap_of_mem hcomponent)

theorem leftovers_match?_subset (h : p.match? oracle m = some result) :
    result.leftovers.components ⊆ m.components := by
  obtain ⟨ps, found, -, -, -, hleftovers⟩ := match?_eq_some_iff.mp h
  rw [hleftovers]
  intro c hc
  obtain ⟨⟨other, i⟩, hmem, rfl⟩ := List.mem_map.mp hc
  exact List.fst_mem_of_mem_zipIdx (List.mem_filter.mp hmem).1

end MixturePattern

/-- What a token of a template stands for is bound, or is the token itself. -/
theorem Token.resolve_subset {b : Bindings} {t : Token} {parts words : List String}
    (hb : b.values ⊆ words) (ht : t.constants ⊆ words) (h : t.resolve b = .ok parts) :
    parts ⊆ words := by
  have hbound := Bindings.values_subset.mp hb
  cases t with
  | constant name => exact Except.ok.inj h ▸ ht
  | var cls digits q =>
    rw [resolve] at h
    split at h
    · cases hvalues : b.collected? (var cls digits q).name with
      | none => simp [hvalues] at h
      | some values =>
        rw [hvalues] at h
        obtain rfl := Except.ok.inj h
        exact hbound _ (Bindings.collected?_eq_some_iff.mp hvalues)
    · cases hvalue : b.single? (var cls digits q).name with
      | none => simp [hvalue, isVariable] at h
      | some value =>
        simp only [isVariable, if_true, hvalue] at h
        obtain rfl := Except.ok.inj h
        exact hbound _ (Bindings.single?_eq_some_iff.mp hvalue)

theorem Template.instantiate_subset {b : Bindings} {t : Template} {c : Component}
    {words : List String} (hb : b.values ⊆ words) (ht : t.constants ⊆ words)
    (h : t.instantiate b = .ok c) : c.tokens ⊆ words := by
  obtain ⟨parts, hparts, hout⟩ := Outcome.bind_eq_ok_iff.mp h
  obtain rfl := Except.ok.inj hout
  intro name hname
  obtain ⟨part, hpart, hmem⟩ := List.mem_flatten.mp hname
  obtain ⟨token, htoken, hresolve⟩ := Outcome.exists_of_mem_mapM hparts hpart
  exact Token.resolve_subset hb (flatMap_subset_iff.mp ht token htoken) hresolve hmem

theorem ComponentRule.tokens_apply_subset {oracle : Oracle} {r : ComponentRule}
    {c d : Component} {words : List String} (hr : r.rhs.constants ⊆ words)
    (hc : c.tokens ⊆ words) (h : (r.apply oracle c).outcome = .ok d) : d.tokens ⊆ words := by
  rw [outcome_apply] at h
  cases hmatch : r.lhs.match? oracle c with
  | none =>
    rw [hmatch] at h
    exact Except.ok.inj h ▸ hc
  | some bound =>
    rw [hmatch] at h
    have hvalues := Pattern.values_match?_subset hmatch
    exact Template.instantiate_subset (List.Subset.trans hvalues hc) hr h

theorem MixtureRule.tokens_apply_subset {oracle : Oracle} {r : MixtureRule} {m n : Mixture}
    {words : List String} (hr : ∀ t ∈ r.products, t.constants ⊆ words)
    (hm : m.tokens ⊆ words) (h : (r.apply oracle m).outcome = .ok n) : n.tokens ⊆ words := by
  rw [outcome_apply] at h
  cases hmatch : r.reactants.match? oracle m with
  | none =>
    rw [hmatch] at h
    exact Except.ok.inj h ▸ hm
  | some found =>
    rw [hmatch] at h
    obtain ⟨products, hproducts, rfl⟩ := Outcome.map_eq_ok_iff.mp h
    rw [Mixture.tokens_subset]
    intro c hc
    rcases List.mem_append.mp hc with hproduct | hleft
    · obtain ⟨t, ht, hinstance⟩ := Outcome.exists_of_mem_mapM hproducts hproduct
      have hvalues := MixturePattern.values_match?_subset hmatch
      exact Template.instantiate_subset (List.Subset.trans hvalues hm) (hr t ht) hinstance
    · exact Mixture.tokens_subset.mp hm c (MixturePattern.leftovers_match?_subset hmatch hleft)

namespace Rule

/-- The right side of a rule: the template of a component rule, or all products. -/
def templates : Rule → List Template
  | component r => [r.rhs]
  | mixture r => r.products

variable {oracle : Oracle} {rule : Rule} {words : List String}

theorem tokens_applyComponent_subset {c d : Component}
    (hrule : ∀ t ∈ rule.templates, t.constants ⊆ words) (hc : c.tokens ⊆ words)
    (h : (rule.applyComponent oracle c).outcome = .ok d) : d.tokens ⊆ words := by
  cases rule with
  | component r => exact r.tokens_apply_subset (hrule r.rhs List.mem_cons_self) hc h
  | mixture r => exact Except.ok.inj h ▸ hc

/-- A rule makes a mixture of tokens that it has and constants of its right side. -/
theorem tokens_applyMixture_subset {m n : Mixture}
    (hrule : ∀ t ∈ rule.templates, t.constants ⊆ words) (hm : m.tokens ⊆ words)
    (h : (rule.applyMixture oracle m).outcome = .ok n) : n.tokens ⊆ words := by
  cases rule with
  | component r =>
    obtain rfl := Except.ok.inj ((outcome_applyMixture_component oracle r m).symm.trans h)
    rw [Mixture.tokens_subset]
    intro d hd
    obtain ⟨c, hc, rfl⟩ := List.mem_map.mp hd
    exact r.tokens_apply_subset (hrule r.rhs List.mem_cons_self)
      (Mixture.tokens_subset.mp hm c hc) (r.outcome_eq_image oracle c)
  | mixture r => exact r.tokens_apply_subset hrule hm h

end Rule

end Simmer
