import Simmer.Proofs.Concise.Expansion

/-!
Concise rules of constants. Where neither the parts nor the result of a concise rule have a
variable, its longhand takes the first indices, `o1` and `i1`. Where no part is a marker or a
veto mark, the words between these two are read as the constants they are. So such a rule, if
it is accepted at all, stands for one clause and one template that are written down here.
-/
namespace Simmer

namespace Token

theorem mapM_parse_constants {words : List String}
    (h : ∀ word ∈ words, parse word = .ok (.constant word)) :
    words.mapM parse = .ok (words.map .constant) := by
  rw [Outcome.mapM_eq_ok_iff_map_eq, List.map_map]
  exact List.map_congr_left h

end Token

namespace ConciseRule

/-- The rule is made of constants, and no part is a marker or a veto mark. -/
structure Plain (r : ConciseRule) : Prop where
  constants : ∀ word ∈ r.parts ++ r.result, Token.parse word = .ok (.constant word)
  no_mark : ∀ part ∈ r.parts, part ≠ "&" ∧ part ≠ "&&" ∧ part ≠ "!!"

/-- What a plain rule looks for. -/
def clause (r : ConciseRule) : Clause where
  collectors := [⟨"1", none⟩]
  strictness := if r.ordered then .ordered else .loose
  body := r.parts.map .constant ++ [.var .ingredient "1" none]

/-- What a plain rule makes of it. -/
def template (r : ConciseRule) : Template :=
  ⟨r.result.map .constant ++ [.var .collector "1" none, .var .ingredient "1" none]⟩

def plainRule (r : ConciseRule) : ComponentRule where
  lhs := .plain r.clause
  rhs := r.template
  closed := by
    intro t ht
    have hvar := Template.isVariable_of_mem_mentions ht
    have hmem := Template.mem_tokens_of_mem_mentions ht
    rw [template, List.mem_append] at hmem
    rcases hmem with hconstant | hadded
    · obtain ⟨word, -, rfl⟩ := List.mem_map.mp hconstant
      cases hvar
    · simp only [List.mem_cons, List.not_mem_nil, or_false] at hadded
      rcases hadded with rfl | rfl
      · rfl
      · simp [Pattern.supplies, Token.isCollector, Token.class?, Pattern.boundNames,
          Pattern.clause, Clause.boundNames, clause, Token.isVariable, List.mem_eraseDups]

variable {r : ConciseRule} {rule : ComponentRule}

theorem freshIndex_constants (cls : VariableClass) (words : List String) :
    freshIndex cls (words.map .constant) = 1 := by
  simp [freshIndex, List.filterMap_map, Function.comp_def, index?]

theorem words_clause (r : ConciseRule) :
    r.clause.words = "o1" :: (if r.ordered then ["&"] else []) ++ r.parts ++ ["i1"] := by
  have hparts : (r.parts.map Token.constant).map Token.text = r.parts := by
    rw [List.map_map]
    exact List.map_id r.parts
  rw [Clause.words, clause, List.map_append, hparts]
  cases r.ordered
  · rfl
  · rw [← List.append_assoc]
    rfl

/-- Without a join, what a plain rule looks for can be read. -/
theorem wellFormed_clause (h : r.Plain) (hjoin : "+" ∉ r.parts) : r.clause.WellFormed where
  names_distinct := List.nodup_singleton _
  collectors o ho := by
    obtain rfl := List.mem_singleton.mp ho
    have hread : Token.parse "o1" = .ok (.var .collector "1" none) := rfl
    exact Collector.wellFormed_iff.mpr (Token.parse_eq_ok_iff.mp hread).1
  body t ht := by
    rcases List.mem_append.mp ht with hconstant | hbase
    · obtain ⟨part, hpart, rfl⟩ := List.mem_map.mp hconstant
      obtain ⟨hordered, hcontiguous, hveto⟩ := h.no_mark part hpart
      have hread := h.constants part (List.mem_append_left _ hpart)
      exact ⟨⟨hread, rfl, hordered, hcontiguous, ne_of_mem_of_not_mem hpart hjoin⟩, hveto⟩
    · obtain rfl := List.mem_singleton.mp hbase
      exact ⟨⟨rfl, rfl, by decide, by decide, by decide⟩, by decide⟩
  base := by simp [clause, Token.class?]
  not_empty := by simp [clause]

/-- The left side of the longhand is read when no part is a join. -/
theorem parse_lhs_iff_of_plain (h : r.Plain)
    (hwords : ∀ word ∈ r.parts ++ r.result, Text.isWord word.toList = true) {p : Pattern} :
    Pattern.parse (r.longhandLhs 1 1) = .ok p ↔ "+" ∉ r.parts ∧ p = .plain r.clause := by
  have hlhs : Text.words (r.longhandLhs 1 1) = r.clause.words :=
    (Text.words_unwords (isWord_of_mem_expansion hwords 1 1).1).trans (words_clause r).symm
  have hread (hjoin : "+" ∉ r.parts) :
      Pattern.parse (r.longhandLhs 1 1) = .ok (.plain r.clause) :=
    Pattern.parse_eq_ok_iff.mpr ⟨wellFormed_clause h hjoin, hlhs.symm⟩
  constructor
  · intro hp
    obtain ⟨hwell, hpwords⟩ := Pattern.parse_eq_ok_iff.mp hp
    have hjoin : "+" ∉ r.parts := by
      intro hmem
      apply hwell.join_notMem_words
      rw [hpwords, hlhs, words_clause]
      simp [hmem]
    exact ⟨hjoin, Except.ok.inj (hp.symm.trans (hread hjoin))⟩
  · rintro ⟨hjoin, rfl⟩
    exact hread hjoin

/-- The right side of the longhand is always read. -/
theorem parse_rhs_iff_of_plain (h : r.Plain)
    (hwords : ∀ word ∈ r.parts ++ r.result, Text.isWord word.toList = true) {t : Template} :
    Template.parse (r.longhandRhs 1 1) = .ok t ↔ t = r.template := by
  have hread : Token.parseWords (r.longhandRhs 1 1) = .ok r.template.tokens := by
    rw [Token.parseWords, longhandRhs, Text.words_unwords (isWord_of_mem_expansion hwords 1 1).2,
      expansion, Outcome.mapM_eq_ok_iff_map_eq, template, List.map_append, List.map_append,
      List.map_map]
    congr 1
    exact List.map_congr_left fun word hword =>
      h.constants word (List.mem_append_right _ hword)
  rw [Template.parse_eq_ok_iff, hread]
  constructor
  · rintro ⟨htokens, -⟩
    cases t
    cases htokens
    rfl
  · rintro rfl
    exact ⟨rfl, by simp [template],
      by simp [template, Token.checkBase, Token.checkSlot, Token.class?]⟩

theorem arrowFree_longhand_iff (r : ConciseRule) :
    ArrowFree (r.longhandLhs 1 1).toList ∧ ArrowFree (r.longhandRhs 1 1).toList ↔
      ∀ word ∈ r.parts ++ r.result, ArrowFree word.toList := by
  have hcollector : ArrowFree "o1".toList := Text.cutAtPair_eq_none.mp rfl
  have hbase : ArrowFree "i1".toList := Text.cutAtPair_eq_none.mp rfl
  have hmarker : ∀ word ∈ if r.ordered then ["&"] else [], ArrowFree word.toList := by
    intro word hword
    split at hword
    · obtain rfl := List.mem_singleton.mp hword
      exact Text.cutAtPair_eq_none.mp rfl
    · cases hword
  have hleft : r.longhandLhs 1 1 = Text.unwords
      ("o1" :: (if r.ordered then ["&"] else []) ++ r.parts ++ ["i1"]) := rfl
  have hright : r.longhandRhs 1 1 = Text.unwords (r.result ++ ["o1", "i1"]) := rfl
  rw [hleft, hright, arrowFree_unwords_iff, arrowFree_unwords_iff]
  simp only [List.forall_mem_append, List.forall_mem_cons, List.cons_append]
  constructor
  · rintro ⟨⟨-, ⟨-, hparts⟩, -⟩, hresult, -⟩
    exact ⟨hparts, hresult⟩
  · rintro ⟨hparts, hresult⟩
    exact ⟨⟨hcollector, ⟨hmarker, hparts⟩, hbase, nofun⟩, hresult, hcollector, hbase, nofun⟩

/-- A plain rule is accepted when no word of it has an arrow and no part is a join, and then it
stands for the rule that is written down above. -/
theorem expand_eq_ok_iff_of_plain (h : r.Plain) :
    r.expand = .ok rule ↔
      (∀ word ∈ r.parts ++ r.result, ArrowFree word.toList) ∧ "+" ∉ r.parts ∧
        rule = r.plainRule := by
  have hread := Token.mapM_parse_constants h.constants
  have hwords := isWord_of_mapM_parse hread
  have hlonghand : r.expand = .ok rule ↔ ComponentRule.parse (r.longhand 1 1) = .ok rule := by
    rw [expand_eq_ok_iff, hread]
    simp only [Except.ok.injEq, exists_eq_left', freshIndex_constants]
  rw [hlonghand, parse_longhand_iff hwords, ← and_assoc, arrowFree_longhand_iff,
    parse_lhs_iff_of_plain h hwords, parse_rhs_iff_of_plain h hwords]
  constructor
  · rintro ⟨harrow, ⟨hjoin, hlhs⟩, hrhs⟩
    refine ⟨harrow, hjoin, ?_⟩
    cases rule
    cases hlhs
    cases hrhs
    rfl
  · rintro ⟨harrow, hjoin, rfl⟩
    exact ⟨harrow, ⟨hjoin, rfl⟩, rfl⟩

end ConciseRule

end Simmer
