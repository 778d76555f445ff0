import Simmer.Proofs.Printing.Legible
import Simmer.Proofs.Rule.Same

/-!
Rule sets put together one definition at a time. Each rule and each alias was read from a text of
its own. The print of such a set is read as the set again exactly when every definition gives
itself back; no other reading of the print makes up for one that does not.
-/
namespace Simmer.RuleSet

/-- The sets that can be put together from rules and aliases that were read. -/
inductive Built : RuleSet → Prop
  | empty : Built empty
  | rule {s : RuleSet} {text : String} {r : Rule} (hs : Built s) (hr : Rule.parse text = .ok r) :
      Built (s.pushRule r)
  | tagAlias {s : RuleSet} {text : String} {a : TagAlias} (hs : Built s)
      (ha : TagAlias.parse text = .ok a) : Built (s.pushAlias a)

/-- No print of a definition is taken for something else on a line. -/
structure Legible (s : RuleSet) : Prop where
  rule_comment : ∀ r ∈ s.rules, '#' ∉ r.text.toList
  alias_comment : ∀ a ∈ s.aliases, '#' ∉ a.text.toList
  alias_equals : ∀ a ∈ s.aliases, '=' ∉ a.text.toList
  alias_arrow : ∀ a ∈ s.aliases, ArrowFree a.text.toList

variable {s : RuleSet}

theorem Built.exists_text_of_rule (h : Built s) :
    ∀ r ∈ s.rules, ∃ text, Rule.parse text = .ok r := by
  induction h with
  | empty => simp [RuleSet.empty]
  | rule _ hr ih =>
    rw [pushRule, List.forall_mem_append, List.forall_mem_singleton]
    exact ⟨ih, _, hr⟩
  | tagAlias _ _ ih => exact ih

theorem Built.exists_text_of_alias (h : Built s) :
    ∀ a ∈ s.aliases, ∃ text, TagAlias.parse text = .ok a := by
  induction h with
  | empty => simp [RuleSet.empty]
  | rule _ _ ih => exact ih
  | tagAlias _ ha ih =>
    rw [pushAlias, List.forall_mem_append, List.forall_mem_singleton]
    exact ⟨ih, _, ha⟩

theorem forall_definitions_iff {P : Definition → Prop} :
    (∀ d ∈ s.definitions, P d) ↔
      (∀ a ∈ s.aliases, P (.tagAlias a)) ∧ ∀ r ∈ s.rules, P (.rule r) := by
  rw [definitions, List.forall_mem_append, List.forall_mem_map, List.forall_mem_map]

theorem Built.stable_of_legible (h : Built s) (hlegible : s.Legible) :
    ∀ d ∈ s.definitions, d.Stable := by
  refine forall_definitions_iff.mpr ⟨fun a ha => ?_, fun r hr => ?_⟩
  · obtain ⟨text, htext⟩ := h.exists_text_of_alias a ha
    exact (Definition.stable_alias_iff htext).mpr
      ⟨hlegible.alias_comment a ha, hlegible.alias_equals a ha, hlegible.alias_arrow a ha⟩
  · obtain ⟨text, htext⟩ := h.exists_text_of_rule r hr
    exact (Definition.stable_rule_iff htext).mpr (hlegible.rule_comment r hr)

/-- A set that is the same as one that was read is legible: the aliases are those of lines, and
each rule has the characters of one that was on a line. -/
theorem Built.legible_of_same {t : RuleSet} {source : String} (h : Built s)
    (ht : parse source = .ok t) (hsame : s.same t = true) : s.Legible := by
  obtain ⟨haliases, hrules⟩ := forall_definitions_iff.mp (stable_of_parse ht)
  simp only [same, Bool.and_eq_true, beq_iff_eq, decide_eq_true_eq] at hsame
  obtain ⟨⟨hsize, hall⟩, heq⟩ := hsame
  -- Aliases are compared as they are; only the rules may differ, in the order of collectors.
  have halias : ∀ a ∈ s.aliases,
      '#' ∉ a.text.toList ∧ '=' ∉ a.text.toList ∧ ArrowFree a.text.toList := by
    intro a ha
    obtain ⟨text, htext⟩ := h.exists_text_of_alias a ha
    exact (Definition.stable_alias_iff htext).mp (haliases a (heq ▸ ha))
  constructor
  · intro r hr hcomment
    obtain ⟨partner, hpartner, hpair⟩ := exists_mem_of_all_zip hsize hall hr
    have hline := (hrules partner hpartner).ofLine
    exact Definition.no_comment_of_ofLine hline (Rule.mem_text_of_same hpair (by decide) hcomment)
  · exact fun a ha => (halias a ha).1
  · exact fun a ha => (halias a ha).2.1
  · exact fun a ha => (halias a ha).2.2

/-- A set that was put together comes back from its print exactly when it is legible. Otherwise
the print is refused or read as another set, and that not only in the order of collectors. -/
theorem parse_text_of_built (h : Built s) :
    (parse s.text = .ok s ↔ s.Legible) ∧
      ((∃ t, parse s.text = .ok t ∧ s.same t = true) ↔ s.Legible) := by
  have hok : s.Legible → parse s.text = .ok s := fun hlegible =>
    parse_text_of_stable (h.stable_of_legible hlegible)
  refine ⟨⟨fun hparse => h.legible_of_same hparse s.same_refl, hok⟩, ?_, ?_⟩
  · rintro ⟨t, ht, hsame⟩
    exact h.legible_of_same ht hsame
  · exact fun hlegible => ⟨s, hok hlegible, s.same_refl⟩

/-- Takes a seasoning away. -/
def rinse (seasoning : String) : Rule :=
  .component
    { lhs := .plain ⟨[], .loose, [.constant seasoning, .var .ingredient "1" none]⟩
      rhs := ⟨[.var .ingredient "1" none]⟩
      closed := by
        intro t ht
        obtain rfl := List.mem_singleton.mp ht
        rfl }

/-- A rule and an alias, each given in another spelling than that of the print. -/
theorem parse_text_of_built_salty :
    Built ((empty.pushRule (rinse "salty")).pushAlias ⟨"salty", ["brined", "cured"]⟩) ∧
      parse "salty : brined, cured\nsalty i1 -> i1\n" =
        .ok ((empty.pushRule (rinse "salty")).pushAlias ⟨"salty", ["brined", "cured"]⟩) := by
  have hrule : Rule.parse " salty  i1->i1" = .ok (rinse "salty") := rfl
  have halias : TagAlias.parse "salty:brined,cured" = .ok ⟨"salty", ["brined", "cured"]⟩ := rfl
  have hbuilt := (Built.empty.rule hrule).tagAlias halias
  have hlegible :
      Legible ((empty.pushRule (rinse "salty")).pushAlias ⟨"salty", ["brined", "cured"]⟩) := by
    constructor
    · decide +kernel
    · decide +kernel
    · decide +kernel
    · exact List.forall_mem_singleton.mpr (Text.cutAtPair_eq_none.mp (by decide +kernel))
  exact ⟨hbuilt, (parse_text_of_built hbuilt).1.mpr hlegible⟩

/-- A rule with a number sign is printed as a comment and lost, and an alias with an equals sign
is taken for a concise rule and refused. -/
theorem parse_text_of_built_loses_definitions :
    Built (empty.pushRule (rinse "#salty")) ∧
      parse (empty.pushRule (rinse "#salty")).text = .ok empty ∧
      (empty.pushRule (rinse "#salty")).same empty = false ∧
      Built (empty.pushAlias ⟨"a=b", ["c"]⟩) ∧
      parse (empty.pushAlias ⟨"a=b", ["c"]⟩).text =
        .error (.atLine 1 (.invalidToken ":" .strayQualifier)) := by
  have hrule : Rule.parse "#salty i1 -> i1" = .ok (rinse "#salty") := rfl
  have halias : TagAlias.parse "a=b : c" = .ok ⟨"a=b", ["c"]⟩ := rfl
  refine ⟨Built.empty.rule hrule, ?_, rfl, Built.empty.tagAlias halias, ?_⟩
  · decide +kernel
  · decide +kernel

end Simmer.RuleSet
