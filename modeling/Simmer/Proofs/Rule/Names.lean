import Simmer.Proofs.Printing.Definition
import Simmer.Proofs.Rule.Origin

/-!
Constants that were read. What the text of a token says alone decides whether it is a variable,
and the name of a variable still reads as one; so no constant of a template that was read is the
name of a variable. The templates of all rules of a rule set were read.
-/
namespace Simmer

namespace Token

/-- A variable that can be written has this name. -/
def NamesVariable (name : String) : Prop :=
  ∃ word t, parse word = .ok t ∧ t.isVariable = true ∧ t.name = name

/-- A constant that was read is not the name of a variable. -/
theorem not_namesVariable_of_parse {word name : String} (h : parse word = .ok (.constant name)) :
    ¬ NamesVariable name := by
  intro hname
  obtain ⟨other, t, hparse, hvar, rfl⟩ := hname
  cases t with
  | constant name => cases hvar
  | var cls digits qualifier =>
    obtain ⟨⟨hne, hdigits, -⟩, -⟩ := parse_eq_ok_iff.mp hparse
    have hfree : parse (var cls digits qualifier).name = .ok (var cls digits none) :=
      parse_eq_ok_iff.mpr ⟨⟨hne, hdigits, by simp⟩, rfl⟩
    obtain rfl : (var cls digits qualifier).name = word := text_of_parse h
    cases hfree.symm.trans h

end Token

namespace Rule

/-- The templates of the rule were read from texts. -/
def TemplatesRead (rule : Rule) : Prop :=
  ∀ t ∈ rule.templates, ∃ text, Template.parse text = .ok t

theorem not_namesVariable_of_templatesRead {rule : Rule} (h : rule.TemplatesRead) {t : Template}
    (ht : t ∈ rule.templates) {name : String} (hname : Token.constant name ∈ t.tokens) :
    ¬ Token.NamesVariable name := by
  obtain ⟨text, htext⟩ := h t ht
  obtain ⟨word, -, hword⟩ := Outcome.exists_of_mem_mapM (Template.parse_eq_ok_iff.mp htext).1 hname
  exact Token.not_namesVariable_of_parse hword

theorem templatesRead_of_component {text : String} {r : ComponentRule}
    (h : ComponentRule.parse text = .ok r) : TemplatesRead (.component r) := by
  obtain ⟨-, rhs, -, -, hrhs⟩ := ComponentRule.parse_eq_ok_iff.mp h
  intro t ht
  obtain rfl := List.mem_singleton.mp ht
  exact ⟨rhs, hrhs⟩

theorem templatesRead_of_parse {text : String} {rule : Rule} (h : parse text = .ok rule) :
    rule.TemplatesRead := by
  obtain ⟨hread, -⟩ := parse_eq_ok_iff.mp h
  cases rule with
  | component r => exact templatesRead_of_component hread
  | mixture r =>
    obtain ⟨-, -, texts, -, -, hproducts, -⟩ := MixtureRule.parse_eq_ok_iff.mp hread
    intro t ht
    obtain ⟨text, -, htext⟩ := Outcome.exists_of_mem_mapM hproducts ht
    exact ⟨text, htext⟩

end Rule

theorem Definition.templatesRead_of_parse {line : String} {r : Rule}
    (h : parse line = .ok (.rule r)) : r.TemplatesRead := by
  unfold parse at h
  dsimp only at h
  split at h
  · obtain ⟨rule, hrule, heq⟩ := Outcome.map_eq_ok_iff.mp h
    obtain rfl := Definition.rule.inj heq
    exact Rule.templatesRead_of_parse hrule
  split at h
  · obtain ⟨concise, -, h⟩ := Outcome.bind_eq_ok_iff.mp h
    obtain ⟨rule, hexpand, h⟩ := Outcome.bind_eq_ok_iff.mp h
    obtain rfl := Definition.rule.inj (Except.ok.inj h)
    obtain ⟨collector, base, hrule⟩ := ConciseRule.exists_longhand hexpand
    exact Rule.templatesRead_of_component hrule
  split at h
  · obtain ⟨a, -, heq⟩ := Outcome.map_eq_ok_iff.mp h
    cases heq
  · cases h

namespace RuleSet

theorem templatesRead_of_ofLines {number : Nat} {lines : List (List Char)} {set : RuleSet}
    (h : ofLines number lines = .ok set) : ∀ rule ∈ set.rules, rule.TemplatesRead := by
  induction lines generalizing number set with
  | nil =>
    obtain rfl := Except.ok.inj h
    simp [empty]
  | cons line lines ih =>
    obtain ⟨definition, hdefinition, h⟩ := Outcome.bind_eq_ok_iff.mp h
    obtain ⟨others, hothers, h⟩ := Outcome.bind_eq_ok_iff.mp h
    obtain rfl := Except.ok.inj h
    have hrest := ih hothers
    have hline := Outcome.mapError_eq_ok_iff.mp hdefinition
    cases definition with
    | none => exact hrest
    | some d =>
      cases d with
      | tagAlias a => exact hrest
      | rule r =>
        refine List.forall_mem_cons.mpr ⟨?_, hrest⟩
        unfold Definition.ofLine? at hline
        split at hline
        · cases hline
        · obtain ⟨d, hparse, hd⟩ := Outcome.map_eq_ok_iff.mp hline
          obtain rfl := Option.some.inj hd
          exact Definition.templatesRead_of_parse hparse

/-- The rules of a set that was read have templates that were read. -/
theorem templatesRead_of_parse {text : String} {set : RuleSet} (h : parse text = .ok set) :
    ∀ rule ∈ set.rules, rule.TemplatesRead :=
  templatesRead_of_ofLines h

end RuleSet

end Simmer
