import Simmer.Proofs.Rule.Origin
import Simmer.Proofs.Verdict

/-!
What a rule asks an oracle. Matching asks for the tokens of its target and for the constants of
the pattern, vetoes included, and for nothing else; of the tags of a constant it only asks which
they are. So two oracles that agree on a vocabulary cannot be told apart by a rule within it.
-/
namespace Simmer

/-- The oracles say the same of each of the words, where tags are a set. -/
structure Oracle.AgreesOn (o o' : Oracle) (words : List String) : Prop where
  isBase_eq : ∀ name ∈ words, o.isBase name = o'.isBase name
  mem_tagsOf_iff : ∀ name ∈ words, ∀ tag, tag ∈ o.tagsOf name ↔ tag ∈ o'.tagsOf name

namespace Selection

variable {σ δ γ : Type} {m : Type → Type} [Monad m]

/-- A search asks only whether members of its pool are admitted. -/
theorem search_congr {s : Strictness} {accept accept' : σ → δ → γ → m (Option σ)} {first : Bool}
    {demands : List δ} {pool : List γ} {state : σ}
    (h : ∀ demand ∈ demands, ∀ x ∈ pool, ∀ state, accept state demand x = accept' state demand x) :
    search s accept first demands pool state = search s accept' first demands pool state := by
  induction demands generalizing first pool state with
  | nil => rfl
  | cons demand demands ih =>
    obtain ⟨hfirst, hrest⟩ := List.forall_mem_cons.mp h
    apply findSomeM?_congr
    intro p hp
    obtain ⟨x, i⟩ := p
    have hx : x ∈ pool := by
      have hwindow := List.mem_zipIdx_iff_getElem?.mp hp
      exact List.mem_of_getElem? (Strictness.getElem?_of_window hwindow)
    have hafter : ∀ next, search s accept false demands (s.after i pool) next =
        search s accept' false demands (s.after i pool) next := fun next =>
      ih fun demand hdemand y hy => hrest demand hdemand y ((s.after_sublist i pool).subset hy)
    simp only [hfirst x hx, hafter]

theorem find?_congr {s : Strictness} {accept accept' : σ → δ → γ → Option σ} {first : Bool}
    {demands : List δ} {pool : List γ} {state : σ}
    (h : ∀ demand ∈ demands, ∀ x ∈ pool, ∀ state, accept state demand x = accept' state demand x) :
    find? s accept first demands pool state = find? s accept' first demands pool state :=
  congrArg Id.run (search_congr fun demand hdemand x hx state => h demand hdemand x hx state)

end Selection

variable {o o' : Oracle} {words : List String}

theorem Category.ofConstant_congr (h : o.AgreesOn o' words) {name : String} (hname : name ∈ words)
    (last : Bool) : ofConstant o name last = ofConstant o' name last := by
  rw [ofConstant, ofConstant, h.isBase_eq name hname]

theorem Token.category_congr (h : o.AgreesOn o' words) {t : Token} (ht : t.constants ⊆ words)
    (last : Bool) : t.category o last = t.category o' last := by
  cases t with
  | constant name => exact Category.ofConstant_congr h (ht List.mem_cons_self) last
  | var cls digits q => cases cls <;> rfl

namespace Slot

theorem allows_congr (h : o.AgreesOn o' words) {name : String} (hname : name ∈ words)
    (qualifier : Option Condition) : allows o qualifier name = allows o' qualifier name := by
  cases qualifier with
  | none => rfl
  | some c => exact Condition.satisfiedBy_congr fun tag _ => h.mem_tagsOf_iff name hname tag

theorem fits_congr (h : o.AgreesOn o' words) {target : Target} (htarget : target.name ∈ words)
    (slot : Slot) : slot.fits o target = slot.fits o' target := by
  obtain ⟨token, category⟩ := slot
  cases token with
  | constant name => rfl
  | var cls digits qualifier => simp only [fits, allows_congr h htarget]

theorem accept_congr (h : o.AgreesOn o' words) {target : Target} (htarget : target.name ∈ words)
    (bound : Bindings) (slot : Slot) : accept o bound slot target = accept o' bound slot target := by
  rw [accept, accept, fits_congr h htarget]

end Slot

namespace Component

theorem targets_congr (h : o.AgreesOn o' words) {c : Component} (hc : c.tokens ⊆ words) :
    c.targets o = c.targets o' := by
  apply List.map_congr_left
  intro p hp
  obtain ⟨name, i⟩ := p
  have hname : name ∈ words := hc (List.fst_mem_of_mem_zipIdx hp)
  simp only [Category.ofConstant_congr h hname]

theorem name_mem_of_mem_targets {c : Component} {target : Target} (h : target ∈ c.targets o) :
    target.name ∈ c.tokens := by
  obtain ⟨⟨name, i⟩, hmem, rfl⟩ := List.mem_map.mp h
  exact List.fst_mem_of_mem_zipIdx hmem

end Component

namespace Clause

def constants (c : Clause) : List String :=
  c.body.flatMap Token.constants

variable {c : Clause} {component : Component}

theorem slots_congr (h : o.AgreesOn o' words) (hc : c.constants ⊆ words) :
    c.slots o = c.slots o' := by
  apply List.map_congr_left
  intro p hp
  obtain ⟨token, i⟩ := p
  have htoken := flatMap_subset_iff.mp hc token (List.fst_mem_of_mem_zipIdx hp)
  simp only [Token.category_congr h htoken]

theorem collect_congr (h : o.AgreesOn o' words) {leftovers : List String}
    (hleftovers : leftovers ⊆ words) (collectors : List Collector) (bound : Bindings) :
    collect o leftovers collectors bound = collect o' leftovers collectors bound := by
  have hfilter : ∀ qualifier, leftovers.filter (Slot.allows o qualifier) =
      leftovers.filter (Slot.allows o' qualifier) := fun qualifier =>
    List.filter_congr fun name hname => Slot.allows_congr h (hleftovers hname) qualifier
  simp only [collect, hfilter]

/-- Matching a clause asks for its constants and the tokens of the component. -/
theorem match?_congr (h : o.AgreesOn o' words) (hc : c.constants ⊆ words)
    (hcomponent : component.tokens ⊆ words) : c.match? o component = c.match? o' component := by
  have hplace : c.place? o (component.targets o') = c.place? o' (component.targets o') := by
    rw [place?, place?, slots_congr h hc]
    apply Selection.find?_congr
    intro slot _ target htarget bound
    exact Slot.accept_congr h (hcomponent (Component.name_mem_of_mem_targets htarget)) bound slot
  rw [match?_eq_map_place?, match?_eq_map_place?, Component.targets_congr h hcomponent, hplace]
  congr 1
  funext placed
  apply collect_congr h
  intro name hname
  obtain ⟨target, htarget, rfl⟩ := List.mem_map.mp hname
  exact hcomponent (Component.name_mem_of_mem_targets (List.mem_filter.mp htarget).1)

end Clause

namespace Pattern

/-- The constants of all clauses, those of vetoes and of their vetoes included. -/
def constants : Pattern → List String
  | plain c => c.constants
  | .unless c veto => c.constants ++ veto.constants

variable {p : Pattern} {component : Component}

theorem probe_congr (h : o.AgreesOn o' words) (hp : p.constants ⊆ words)
    (hcomponent : component.tokens ⊆ words) : p.probe o component = p.probe o' component := by
  induction p with
  | plain c => rw [probe, probe, Clause.match?_congr h hp hcomponent]
  | «unless» c veto ih =>
    obtain ⟨hc, hveto⟩ := List.append_subset.mp hp
    rw [probe, probe, ih hveto, Clause.match?_congr h hc hcomponent]

theorem accept_congr (h : o.AgreesOn o' words) (hp : p.constants ⊆ words)
    (hcomponent : component.tokens ⊆ words) (bound : Bindings) (i : Nat) :
    p.accept o bound (component, i) = p.accept o' bound (component, i) := by
  rw [accept, accept, probe_congr h hp hcomponent]

end Pattern

theorem MixturePattern.probe_congr (h : o.AgreesOn o' words) {p : MixturePattern} {m : Mixture}
    (hp : ∀ element ∈ p.elements, element.constants ⊆ words) (hm : m.tokens ⊆ words) :
    p.probe o m = p.probe o' m := by
  have hsearch : Selection.search .loose (Pattern.accept o) true p.elements
        m.components.zipIdx .empty =
      Selection.search .loose (Pattern.accept o') true p.elements m.components.zipIdx .empty := by
    apply Selection.search_congr
    intro element helement x hx bound
    obtain ⟨component, i⟩ := x
    have hcomponent := Mixture.tokens_subset.mp hm component (List.fst_mem_of_mem_zipIdx hx)
    exact Pattern.accept_congr h (hp element helement) hcomponent bound i
  rw [probe, probe, Assignment.assign_start, Assignment.assign_start, hsearch]

namespace Rule

/-- The left side of a rule: the pattern of a component rule, or all reactants. -/
def patterns : Rule → List Pattern
  | component r => [r.lhs]
  | mixture r => r.reactants.elements

/-- The constants of both sides. -/
def constants (rule : Rule) : List String :=
  rule.patterns.flatMap Pattern.constants ++ rule.templates.flatMap Template.constants

variable {rule : Rule}

theorem patterns_subset (hrule : rule.constants ⊆ words) :
    ∀ p ∈ rule.patterns, p.constants ⊆ words :=
  flatMap_subset_iff.mp (List.append_subset.mp hrule).1

theorem templates_subset (hrule : rule.constants ⊆ words) :
    ∀ t ∈ rule.templates, t.constants ⊆ words :=
  flatMap_subset_iff.mp (List.append_subset.mp hrule).2

end Rule

theorem ComponentRule.apply_congr (h : o.AgreesOn o' words) {r : ComponentRule} {c : Component}
    (hr : r.lhs.constants ⊆ words) (hc : c.tokens ⊆ words) : r.apply o c = r.apply o' c := by
  rw [apply, apply, tryApply, tryApply, Pattern.probe_congr h hr hc]

theorem MixtureRule.apply_congr (h : o.AgreesOn o' words) {r : MixtureRule} {m : Mixture}
    (hr : ∀ element ∈ r.reactants.elements, element.constants ⊆ words) (hm : m.tokens ⊆ words) :
    r.apply o m = r.apply o' m := by
  rw [apply, apply, tryApply, tryApply, MixturePattern.probe_congr h hr hm]

namespace Rule

variable {rule : Rule}

/-- A rule asks for its constants and the tokens of the component, with all it tells. -/
theorem applyComponent_congr (h : o.AgreesOn o' words) (hrule : rule.constants ⊆ words)
    {c : Component} (hc : c.tokens ⊆ words) : rule.applyComponent o c = rule.applyComponent o' c := by
  cases rule with
  | component r => exact r.apply_congr h (patterns_subset hrule r.lhs List.mem_cons_self) hc
  | mixture r => rfl

theorem applyMixture_congr (h : o.AgreesOn o' words) (hrule : rule.constants ⊆ words)
    {m : Mixture} (hm : m.tokens ⊆ words) : rule.applyMixture o m = rule.applyMixture o' m := by
  cases rule with
  | component r =>
    have hlhs := patterns_subset hrule r.lhs List.mem_cons_self
    have hcomponents : m.components.mapM (r.apply o) = m.components.mapM (r.apply o') :=
      Run.mapM_congr fun c hc => r.apply_congr h hlhs (Mixture.tokens_subset.mp hm c hc)
    rw [applyMixture, applyMixture, hcomponents]
  | mixture r => exact r.apply_congr h (patterns_subset hrule) hm

end Rule

end Simmer
