import Simmer.Proofs.Rule.Closed
import Simmer.Proofs.Selection.Sieve

/-!
Rules with one reactant. A mixture pattern of one element goes to the first component that the
element matches; it binds what is found there and leaves the other components over. So a
mixture rule with one reactant and one product does to this component what the component rule
with the same two sides does, and puts the result in front of the rest.
-/
namespace Simmer

/-- Where some member has a property, one of them is the first. -/
theorem exists_first {α : Type} {P : α → Prop} {xs : List α} (h : ∃ x ∈ xs, P x) :
    ∃ (i : Nat) (x : α), xs[i]? = some x ∧ P x ∧ ∀ j < i, ∀ y, xs[j]? = some y → ¬ P y := by
  classical
  have hsome : ∃ (i : Nat) (x : α), xs[i]? = some x ∧ P x := by
    obtain ⟨x, hx, hP⟩ := h
    obtain ⟨i, hi⟩ := List.mem_iff_getElem?.mp hx
    exact ⟨i, x, hi, hP⟩
  obtain ⟨x, hx, hP⟩ := Nat.find_spec hsome
  exact ⟨_, x, hx, hP, fun j hj y hy hPy => Nat.find_min hsome hj ⟨y, hy, hPy⟩⟩

namespace MixturePattern

variable {oracle : Oracle} {p : Pattern} {m : Mixture}

theorem supplies_single (t : Token) : supplies ⟨[p]⟩ t = p.supplies t := by
  rw [Bool.eq_iff_iff, supplies_iff]
  simp

/-- One element goes to one component, and finds its match there. -/
theorem assigns_single_iff {ps : List Nat} {found : List Bindings} :
    Assigns oracle ⟨[p]⟩ m ps found ↔
      ∃ i c b, ps = [i] ∧ found = [b] ∧ m.components[i]? = some c ∧
        p.match? oracle c = some b := by
  constructor
  · intro h
    obtain ⟨i, rfl⟩ := List.length_eq_one_iff.mp h.length_positions
    obtain ⟨b, rfl⟩ := List.length_eq_one_iff.mp h.length_found
    have hc := List.getElem?_eq_getElem (h.in_range i List.mem_cons_self)
    exact ⟨i, _, b, rfl, rfl, hc, h.matched 0 p i _ rfl rfl hc⟩
  · intro h
    obtain ⟨i, c, b, rfl, rfl, hc, hmatch⟩ := h
    have hlt : i < m.components.length := (List.getElem?_eq_some_iff.mp hc).1
    refine ⟨rfl, rfl, List.nodup_singleton i, by simpa using hlt, ?_, ?_⟩
    · intro k element j d helement hj hd
      obtain rfl : k = 0 := by
        have hk := (List.getElem?_eq_some_iff.mp helement).1
        simpa using hk
      obtain rfl := Option.some.inj helement
      obtain rfl := Option.some.inj hj
      obtain rfl := Option.some.inj (hc.symm.trans hd)
      exact hmatch
    · intro b₁ h₁ b₂ h₂ name v w hv hw
      obtain rfl := List.mem_singleton.mp h₁
      obtain rfl := List.mem_singleton.mp h₂
      exact b₂.value_unique hv hw

theorem match?_single_eq_none_iff :
    match? oracle m ⟨[p]⟩ = none ↔ ∀ c ∈ m.components, p.match? oracle c = none := by
  rw [match?_eq_none_iff]
  constructor
  · intro h c hc
    obtain ⟨i, hi⟩ := List.mem_iff_getElem?.mp hc
    by_contra hsome
    obtain ⟨b, hb⟩ := Option.ne_none_iff_exists'.mp hsome
    exact h ⟨[i], [b], assigns_single_iff.mpr ⟨i, c, b, rfl, rfl, hi, hb⟩⟩
  · rintro h ⟨ps, found, hassigns⟩
    obtain ⟨i, c, b, -, -, hc, hb⟩ := assigns_single_iff.mp hassigns
    rw [h c (List.mem_of_getElem? hc)] at hb
    cases hb

/-- The element matches the first component that it can match. -/
theorem match?_single {i : Nat} {c : Component} {b : Bindings} (hc : m.components[i]? = some c)
    (hb : p.match? oracle c = some b)
    (hfirst : ∀ j < i, ∀ d, m.components[j]? = some d → p.match? oracle d = none) :
    match? oracle m ⟨[p]⟩ = some ⟨b, ⟨m.components.eraseIdx i⟩⟩ := by
  have hassigns : Assigns oracle ⟨[p]⟩ m [i] [b] :=
    assigns_single_iff.mpr ⟨i, c, b, rfl, rfl, hc, hb⟩
  have hleast : Selection.Least (fun qs => ∃ found, Assigns oracle ⟨[p]⟩ m qs found) [i] := by
    refine ⟨⟨[b], hassigns⟩, ?_⟩
    rintro qs ⟨found, hqs⟩ hlex
    obtain ⟨j, d, b', rfl, -, hd, hb'⟩ := assigns_single_iff.mp hqs
    have hji : j < i := by
      cases hlex with
      | rel hlt => exact hlt
      | cons hnil => exact absurd hnil List.not_lex_nil
    rw [hfirst j hji d hd] at hb'
    cases hb'
  have hgathers : b.Gathers ([b].flatMap Roster.entries) := by
    rw [List.flatMap_singleton, Roster.Gathers, Roster.eraseDups_of_nodup b.nodup_entries]
  exact match?_eq_some_iff.mpr ⟨[i], [b], hleast, hassigns, hgathers,
    congrArg Mixture.mk (Selection.others_singleton i m.components).symm⟩

end MixturePattern

namespace MixtureRule

/-- The two checks of a rule agree when there is one reactant and one product. -/
theorem exists_of?_single_iff {p : Pattern} {t : Template} :
    (∃ r, ComponentRule.of? p t = .ok r) ↔ ∃ r, of? ⟨[p]⟩ [t] = .ok r := by
  constructor
  · rintro ⟨r, hr⟩
    obtain ⟨rfl, rfl⟩ := ComponentRule.of?_eq_ok_iff.mp hr
    refine ⟨⟨⟨[r.lhs]⟩, [r.rhs], fun token htoken => ?_⟩, of?_eq_ok_iff.mpr ⟨rfl, rfl⟩⟩
    rw [MixturePattern.supplies_single]
    rw [List.flatMap_singleton] at htoken
    exact r.closed token htoken
  · rintro ⟨r, hr⟩
    obtain ⟨hreactants, hproducts⟩ := of?_eq_ok_iff.mp hr
    refine ⟨⟨p, t, fun token htoken => ?_⟩, ComponentRule.of?_eq_ok_iff.mpr ⟨rfl, rfl⟩⟩
    have hclosed := r.closed token
    rw [hreactants, hproducts, MixturePattern.supplies_single, List.flatMap_singleton] at hclosed
    exact hclosed htoken

/-- A mixture rule with one reactant and one product is accepted when the component rule is. It
does nothing where the component rule matches no component, and otherwise it turns the first
one that this matches, and puts the result in front of the others. -/
theorem one_reactant_agrees (p : Pattern) (t : Template) :
    ((∃ r, ComponentRule.of? p t = .ok r) ↔ ∃ r, of? ⟨[p]⟩ [t] = .ok r) ∧
    ∀ (r : ComponentRule) (s : MixtureRule), ComponentRule.of? p t = .ok r →
      of? ⟨[p]⟩ [t] = .ok s → ∀ (oracle : Oracle) (m : Mixture),
        ((s.tryApply oracle m).outcome = .ok none ↔
          ∀ c ∈ m.components, (r.tryApply oracle c).outcome = .ok none) ∧
        ((s.tryApply oracle m).outcome ≠ .ok none →
          ∃ i c out, m.components[i]? = some c ∧
            (r.tryApply oracle c).outcome = .ok (some out) ∧
            (∀ j < i, ∀ d, m.components[j]? = some d →
              (r.tryApply oracle d).outcome = .ok none) ∧
            (s.tryApply oracle m).outcome = .ok (some ⟨out :: m.components.eraseIdx i⟩)) := by
  refine ⟨exists_of?_single_iff, fun r s hr hs oracle m => ?_⟩
  obtain ⟨rfl, rfl⟩ := ComponentRule.of?_eq_ok_iff.mp hr
  obtain ⟨hreactants, hproducts⟩ := of?_eq_ok_iff.mp hs
  have hnone : (s.tryApply oracle m).outcome = .ok none ↔
      ∀ c ∈ m.components, (r.tryApply oracle c).outcome = .ok none := by
    simp only [tryApply_eq_none_iff, ComponentRule.tryApply_eq_none_iff, hreactants,
      MixturePattern.match?_single_eq_none_iff]
  refine ⟨hnone, fun hsome => ?_⟩
  have hsomewhere : ∃ c ∈ m.components, (r.tryApply oracle c).outcome ≠ .ok none := by
    simpa only [Ne, hnone, not_forall, exists_prop] using hsome
  obtain ⟨i, c, hc, happlies, hfirst⟩ := exists_first hsomewhere
  have hmissed : ∀ j < i, ∀ d, m.components[j]? = some d →
      (r.tryApply oracle d).outcome = .ok none :=
    fun j hj d hd => not_not.mp (hfirst j hj d hd)
  obtain ⟨result, hresult⟩ := r.exists_tryApply oracle c
  cases result with
  | none => exact absurd hresult happlies
  | some out =>
    obtain ⟨b, hb, hout⟩ := ComponentRule.tryApply_eq_some_iff.mp hresult
    refine ⟨i, c, out, hc, hresult, hmissed, tryApply_eq_some_iff.mpr ?_⟩
    have hmatch := MixturePattern.match?_single hc hb fun j hj d hd =>
      ComponentRule.tryApply_eq_none_iff.mp (hmissed j hj d hd)
    rw [hreactants, hproducts]
    exact ⟨_, [out], hmatch, Outcome.mapM_eq_ok_iff.mpr (.cons hout .nil), rfl⟩

/-- Something hot that is not frozen as well. -/
def unfrozen : Pattern :=
  .unless ⟨[⟨"1", none⟩], .loose, [.constant "hot", .var .ingredient "1" none]⟩
    (.plain ⟨[], .loose, [.constant "frozen", .var .ingredient "1" none]⟩)

def chilled : Template :=
  ⟨[.constant "cold", .var .collector "1" none, .var .ingredient "1" none]⟩

/-- The frozen onion stays hot, the water behind it is chilled, and the other onion is left. -/
theorem one_reactant_agrees_chilled :
    Pattern.parse "o1 hot i1 !! frozen i1" = .ok unfrozen ∧
      Template.parse "cold o1 i1" = .ok chilled ∧
      ∃ s, of? ⟨[unfrozen]⟩ [chilled] = .ok s ∧
        (s.tryApply (.plain ["Onion", "Water"])
          ⟨[⟨["hot", "frozen", "Onion"]⟩, ⟨["fresh", "hot", "Water"]⟩, ⟨["hot", "Onion"]⟩]⟩).outcome =
        .ok (some
          ⟨[⟨["cold", "fresh", "Water"]⟩, ⟨["hot", "frozen", "Onion"]⟩, ⟨["hot", "Onion"]⟩]⟩) := by
  obtain ⟨hcheck, hagree⟩ := one_reactant_agrees unfrozen chilled
  have hr : ComponentRule.of? unfrozen chilled = .ok ⟨unfrozen, chilled, by decide⟩ := rfl
  obtain ⟨s, hs⟩ := hcheck.mp ⟨_, hr⟩
  obtain ⟨hnone, hsome⟩ := hagree _ s hr hs (.plain ["Onion", "Water"])
    ⟨[⟨["hot", "frozen", "Onion"]⟩, ⟨["fresh", "hot", "Water"]⟩, ⟨["hot", "Onion"]⟩]⟩
  refine ⟨rfl, rfl, s, hs, ?_⟩
  obtain ⟨i, c, out, hc, hout, hfirst, hresult⟩ := hsome fun h => by
    have hmissed := hnone.mp h ⟨["hot", "Onion"]⟩ (by simp)
    cases hmissed
  match i with
  | 0 =>
    obtain rfl := Option.some.inj hc
    cases hout
  | 1 =>
    obtain rfl := Option.some.inj hc
    obtain rfl := Option.some.inj (Except.ok.inj hout)
    exact hresult
  | i + 2 => cases hfirst 1 (by omega) _ rfl

end MixtureRule

end Simmer
