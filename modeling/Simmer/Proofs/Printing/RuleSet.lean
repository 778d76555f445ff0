import Simmer.Proofs.Printing.Definition
import Simmer.Proofs.RuleSet.Lines

/-!
Rule sets in print. The print has one line for each definition, and every definition of a set
that was read is defined again by its own line. So the print of such a set is read as the set.
-/
namespace Simmer.RuleSet

/-- The definitions of a set in the order of its print. -/
def definitions (s : RuleSet) : List Definition :=
  s.aliases.map .tagAlias ++ s.rules.map .rule

/-- The set that definitions make. -/
def collect (ds : List Definition) : RuleSet :=
  ds.foldr (fun d s => cons (some d) s) empty

theorem collect_definitions (s : RuleSet) : collect s.definitions = s := by
  have hrules (rules : List Rule) : collect (rules.map .rule) = ⟨rules, []⟩ := by
    induction rules with
    | nil => rfl
    | cons rule rules ih =>
      rw [List.map_cons, collect, List.foldr_cons, ← collect, ih]
      rfl
  have haliases (aliases : List TagAlias) :
      collect (aliases.map .tagAlias ++ s.rules.map .rule) = ⟨s.rules, aliases⟩ := by
    induction aliases with
    | nil => exact hrules s.rules
    | cons a aliases ih =>
      rw [List.map_cons, List.cons_append, collect, List.foldr_cons, ← collect, ih]
      rfl
  exact haliases s.aliases

theorem mem_definitions_cons {d e : Definition} {s : RuleSet}
    (h : e ∈ (cons (some d) s).definitions) : e = d ∨ e ∈ s.definitions := by
  cases d with
  | rule r =>
    simp only [cons, definitions, List.map_cons, List.mem_append, List.mem_cons] at h ⊢
    tauto
  | tagAlias a =>
    simp only [cons, definitions, List.map_cons, List.mem_append, List.mem_cons] at h ⊢
    tauto

/-- Every definition that lines make is stable. -/
theorem stable_of_ofLines {number : Nat} {lines : List (List Char)} {s : RuleSet}
    (h : ofLines number lines = .ok s) (hbreak : ∀ line ∈ lines, '\n' ∉ line) :
    ∀ d ∈ s.definitions, d.Stable := by
  induction lines generalizing number s with
  | nil =>
    obtain rfl := Except.ok.inj h
    simp [definitions, empty]
  | cons line lines ih =>
    obtain ⟨hline, hlines⟩ := List.forall_mem_cons.mp hbreak
    obtain ⟨definition, hdefinition, h⟩ := Outcome.bind_eq_ok_iff.mp h
    obtain ⟨others, hothers, h⟩ := Outcome.bind_eq_ok_iff.mp h
    obtain rfl := Except.ok.inj h
    have hstable := ih hothers hlines
    have hof := Outcome.mapError_eq_ok_iff.mp hdefinition
    cases definition with
    | none => exact hstable
    | some d =>
      intro e he
      rcases mem_definitions_cons he with rfl | he
      · exact Definition.stable_of_ofLine hof hline
      · exact hstable e he

/-- Stable definitions, one on each line, are read as they are. -/
theorem ofLines_print {ds : List Definition} (h : ∀ d ∈ ds, d.Stable) (number : Nat) :
    ofLines number (ds.map (fun d => d.text.toList) ++ [[]]) = .ok (collect ds) := by
  induction ds generalizing number with
  | nil => rfl
  | cons d ds ih =>
    obtain ⟨hd, hds⟩ := List.forall_mem_cons.mp h
    rw [List.map_cons, List.cons_append, ofLines, hd.ofLine, ih hds]
    rfl

theorem toList_text (s : RuleSet) :
    s.text.toList = s.definitions.flatMap fun d => d.text.toList ++ ['\n'] := by
  rw [text, String.toList_join, List.flatMap_map, definitions, List.flatMap_append,
    List.flatMap_append, List.flatMap_map, List.flatMap_map, List.flatMap_map, List.flatMap_map]
  simp [Definition.text]

/-- The pieces of a print are its definitions, and an empty one behind the last. -/
theorem piecesAt_text {s : RuleSet} (h : ∀ d ∈ s.definitions, '\n' ∉ d.text.toList) :
    Text.piecesAt '\n' s.text.toList = s.definitions.map (fun d => d.text.toList) ++ [[]] := by
  rw [toList_text]
  generalize s.definitions = ds at h
  induction ds with
  | nil => rfl
  | cons d ds ih =>
    obtain ⟨hd, hds⟩ := List.forall_mem_cons.mp h
    rw [List.flatMap_cons, List.append_assoc, List.singleton_append, Text.piecesAt_append hd,
      ih hds]
    rfl

theorem stable_of_parse {source : String} {s : RuleSet} (h : parse source = .ok s) :
    ∀ d ∈ s.definitions, d.Stable := by
  rw [parse_eq_ofLines] at h
  exact stable_of_ofLines h fun _ hline => Text.not_mem_of_mem_piecesAt hline

/-- A set of stable definitions is read from its print. -/
theorem parse_text_of_stable {s : RuleSet} (h : ∀ d ∈ s.definitions, d.Stable) :
    parse s.text = .ok s := by
  rw [parse_eq_ofLines, piecesAt_text fun d hd => (h d hd).no_break, ofLines_print h,
    collect_definitions]

/-- A rule set that was read from a text is read again from its print: the same rules in the
same order, each of its kind, and the same aliases in the same order. So printing what was read
from a print gives that print. -/
theorem parse_text_of_parse {source : String} {s : RuleSet} (h : parse source = .ok s) :
    parse s.text = .ok s ∧ (parse s.text).map text = .ok s.text := by
  have hparse : parse s.text = .ok s := parse_text_of_stable (stable_of_parse h)
  exact ⟨hparse, by rw [hparse]; rfl⟩

/-- A line of each form, with a comment on its own and one behind a rule. -/
def kitchenText : String :=
  "# kitchen\n" ++
  "salty + wet = soggy\n" ++
  "chopped +> fried = crispy  # in this order\n" ++
  "o1 salty  salty i1 -> o1 salty i1\n" ++
  "m1 i1:!(Water|Oil) + i2 -> m1 wet i2\n" ++
  "salty: brined,cured"

/-- The alias comes first, the concise rules are written out, and the reactants and the product
of the mixture rule stand in parentheses. -/
def kitchenPrint : String :=
  "salty : brined, cured\n" ++
  "o1 salty wet i1 -> soggy o1 i1\n" ++
  "o1 & chopped fried i1 -> crispy o1 i1\n" ++
  "o1 salty salty i1 -> o1 salty i1\n" ++
  "(m1 i1:!(Water|Oil)) + (i2) -> (m1 wet i2)\n"

theorem parse_text_of_parse_kitchen :
    ∃ s, parse kitchenText = .ok s ∧ s.text = kitchenPrint ∧
      parse s.text = .ok s ∧ (parse s.text).map text = .ok s.text := by
  have hprint : (parse kitchenText).map text = .ok kitchenPrint := by decide +kernel
  cases hparse : parse kitchenText with
  | error fault =>
    rw [hparse] at hprint
    cases hprint
  | ok s =>
    rw [hparse] at hprint
    exact ⟨s, rfl, Except.ok.inj hprint, parse_text_of_parse hparse⟩

end Simmer.RuleSet
