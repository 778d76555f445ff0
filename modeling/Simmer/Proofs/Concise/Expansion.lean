import Simmer.Proofs.Printing.Definition
import Simmer.Proofs.Rule.Names
import Mathlib.Algebra.Group.Nat.Defs

/-!
The expansion of concise rules. The longhand of a concise rule is cut at the arrow that the
expansion puts in, so the rule it is read as is printed as this text. Its collector and its
base variable take indices above all those that are counted on the line, and an index that is
not counted is too large to be the one taken; so neither of them has the name of a token of
the line.
-/
namespace Simmer

open Text (Inked)

namespace Token

/-- The variable of a class with an index in decimal digits. -/
def indexed (cls : VariableClass) (index : Nat) : Token :=
  .var cls (toString index) none

theorem name_indexed_inj {cls cls' : VariableClass} {digits : String} {index : Nat}
    {qualifier : Option Condition}
    (h : (var cls' digits qualifier).name = (indexed cls index).name) :
    cls' = cls ∧ digits = toString index := by
  obtain rfl := class_eq_of_name_eq h
  refine ⟨rfl, ?_⟩
  rw [indexed, name, name, ← String.toList_inj, String.toList_append, String.toList_append,
    List.append_cancel_left_eq, String.toList_inj] at h
  exact h

/-- The name of an indexed variable is read as the variable. -/
theorem parse_name_indexed (cls : VariableClass) (index : Nat) :
    parse (indexed cls index).name = .ok (indexed cls index) := by
  refine parse_eq_ok_iff.mpr ⟨⟨?_, ?_, by simp⟩, rfl⟩
  · rw [Nat.toString_eq_ofList_toDigits, ne_eq, ← String.toList_eq_nil_iff, String.toList_ofList]
    exact Nat.toDigits_ne_nil
  · intro d hd
    rw [Nat.toString_eq_ofList_toDigits, String.toList_ofList] at hd
    exact Nat.isDigit_of_mem_toDigits (by decide) (by decide) hd

end Token

namespace ConciseRule

section reading

/-- How a concise rule stands on its line: the pieces between the joins and the words behind
the equals sign. -/
structure Layout (line : String) (lhs rhs : List Char) (pieces : List (List Char))
    (r : ConciseRule) : Prop where
  line_eq : line.toList = lhs ++ '=' :: rhs
  equals_once : '=' ∉ lhs ∧ '=' ∉ rhs
  ordered_iff : r.ordered = true ↔ ['+', '>'] <:+: lhs
  joined : lhs = (if r.ordered = true then ['+', '>'] else ['+']).intercalate pieces
  join_free : ∀ piece ∈ pieces, '+' ∉ piece
  parts_eq : r.parts.map String.toList = pieces.map Text.trim
  result_eq : r.result.map String.toList = Text.wordsOf rhs

theorem splitParts_joined {line : String} {lhs : List Char} {ordered : Bool}
    {pieces : List (List Char)} (h : splitParts line lhs = .ok (ordered, pieces)) :
    (ordered = true ↔ ['+', '>'] <:+: lhs) ∧
      lhs = (if ordered = true then ['+', '>'] else ['+']).intercalate pieces := by
  rcases splitParts_eq_ok_iff.mp h with ⟨rfl, hnone, rfl⟩ | ⟨rfl, hjoin, rfl, -⟩
  · exact ⟨iff_of_false Bool.false_ne_true hnone, (Text.intercalate_piecesAt '+' lhs).symm⟩
  · exact ⟨iff_of_true rfl hjoin, (Text.intercalate_piecesAtPair '+' '>' lhs).symm⟩

theorem exists_layout {line : String} {r : ConciseRule} (h : parse line = .ok r) :
    ∃ lhs rhs pieces, r.Layout line lhs rhs pieces := by
  obtain ⟨lhs, rhs, pieces, hcut, -, hequals, hpieces, -, hparts, hresult⟩ :=
    parse_eq_ok_iff.mp h
  obtain ⟨hordered, hjoined⟩ := splitParts_joined hpieces
  exact ⟨lhs, rhs, pieces, Text.cutAt_eq_some hcut, ⟨Text.not_mem_of_cutAt hcut, hequals⟩,
    hordered, hjoined, fun piece hpiece => (splitParts_spec hpieces piece hpiece).2, hparts,
    hresult⟩

end reading

section freshness

theorem nextIndex_lt (index : Nat) : nextIndex index < indexBound :=
  Nat.mod_lt _ (by decide)

theorem nextIndex_of_lt {index : Nat} (h : index + 1 < indexBound) :
    nextIndex index = index + 1 :=
  Nat.mod_eq_of_lt h

/-- The fresh index is the least one that no next index is above, and at least 1. -/
theorem freshIndex_le_iff {cls : VariableClass} {tokens : List Token} {bound : Nat} :
    freshIndex cls tokens ≤ bound ↔
      1 ≤ bound ∧ ∀ t ∈ tokens, ∀ index, index? cls t = some index → nextIndex index ≤ bound := by
  have hfold : ∀ (used : List Nat) (start : Nat),
      used.foldl (fun fresh index => max fresh (nextIndex index)) start ≤ bound ↔
        start ≤ bound ∧ ∀ index ∈ used, nextIndex index ≤ bound := by
    intro used
    induction used with
    | nil => simp
    | cons index used ih =>
      intro start
      rw [List.foldl_cons, ih, List.forall_mem_cons, Nat.max_le, and_assoc]
  rw [freshIndex, hfold]
  simp only [List.mem_filterMap, forall_exists_index, and_imp]
  refine and_congr_right fun _ => ?_
  exact ⟨fun h t ht index => h index t ht, fun h index t ht => h t ht index⟩

/-- The greatest index is followed by 0 and so does not count. -/
example : freshIndex .ingredient [.var .ingredient "18446744073709551615" none] = 1 := rfl

theorem freshIndex_lt (cls : VariableClass) (tokens : List Token) :
    freshIndex cls tokens < indexBound := by
  have hle : freshIndex cls tokens ≤ indexBound - 1 :=
    freshIndex_le_iff.mpr ⟨by decide, fun _ _ index _ => Nat.le_sub_one_of_lt (nextIndex_lt index)⟩
  exact Nat.lt_of_le_sub_one (by decide) hle

theorem index?_indexed {cls : VariableClass} {digits : String} {qualifier : Option Condition}
    {index : Nat} (hdigits : digits = toString index) (hindex : index < indexBound) :
    index? cls (.var cls digits qualifier) = some index := by
  have hvalue : Nat.ofDigitChars 10 digits.toList 0 = index := by
    rw [hdigits, Nat.toString_eq_ofList_toDigits, String.toList_ofList,
      Nat.ofDigitChars_ten_toDigits]
  rw [index?, hvalue, if_pos ⟨rfl, hindex⟩]

theorem value_of_index? {cls found : VariableClass} {digits : String}
    {qualifier : Option Condition} {index : Nat}
    (h : index? cls (.var found digits qualifier) = some index) :
    Nat.ofDigitChars 10 digits.toList 0 = index := by
  simp only [index?] at h
  split at h
  · exact Option.some.inj h
  · cases h

/-- Unless a token has the last index that is counted, none has the name of the variable with
the fresh index. -/
theorem name_ne_fresh {cls : VariableClass} {words : List String} {tokens : List Token}
    (hread : words.mapM Token.parse = .ok tokens)
    (hlast : ∀ digits qualifier, .var cls digits qualifier ∈ tokens →
      Nat.ofDigitChars 10 digits.toList 0 + 1 ≠ indexBound) {t : Token} (ht : t ∈ tokens) :
    t.name ≠ (Token.indexed cls (freshIndex cls tokens)).name := by
  intro hname
  cases t with
  | constant name =>
    obtain ⟨word, -, hword⟩ := Outcome.exists_of_mem_mapM hread ht
    exact Token.not_namesVariable_of_parse hword
      ⟨_, _, Token.parse_name_indexed cls _, rfl, hname.symm⟩
  | var found digits qualifier =>
    obtain ⟨rfl, hdigits⟩ := Token.name_indexed_inj hname
    have hcount := freshIndex_lt found tokens
    have hindex : index? found (.var found digits qualifier) = some (freshIndex found tokens) :=
      index?_indexed hdigits hcount
    have hnext : freshIndex found tokens + 1 ≠ indexBound := by
      have hne := hlast digits qualifier ht
      rwa [value_of_index? hindex] at hne
    have hle := (freshIndex_le_iff.mp (Nat.le_refl _)).2 _ ht _ hindex
    rw [nextIndex_of_lt (by omega)] at hle
    omega

end freshness

section longhand

variable {r : ConciseRule} {rule : ComponentRule} {collector base : Nat}

theorem expand_eq_ok_iff :
    r.expand = .ok rule ↔ ∃ tokens, (r.parts ++ r.result).mapM Token.parse = .ok tokens ∧
      ComponentRule.parse (r.longhand (freshIndex .collector tokens)
        (freshIndex .ingredient tokens)) = .ok rule :=
  Outcome.bind_eq_ok_iff

/-- The words of a longhand, when those of the concise rule are words. -/
theorem isWord_of_mem_expansion
    (hwords : ∀ word ∈ r.parts ++ r.result, Text.isWord word.toList = true)
    (collector base : Nat) :
    (∀ word ∈ (r.expansion ("o" ++ toString collector) ("i" ++ toString base)).1,
      Text.isWord word.toList = true) ∧
    ∀ word ∈ (r.expansion ("o" ++ toString collector) ("i" ++ toString base)).2,
      Text.isWord word.toList = true := by
  have hcollector : Text.isWord ("o" ++ toString collector).toList = true :=
    Token.isWord_of_parse (Token.parse_name_indexed .collector collector)
  have hbase : Text.isWord ("i" ++ toString base).toList = true :=
    Token.isWord_of_parse (Token.parse_name_indexed .ingredient base)
  obtain ⟨hparts, hresult⟩ := List.forall_mem_append.mp hwords
  have hmarker : ∀ word ∈ if r.ordered then [Strictness.ordered.marker] else [],
      Text.isWord word.toList = true := by
    split <;> decide
  constructor
  · rw [expansion]
    refine List.forall_mem_append.mpr ⟨List.forall_mem_append.mpr ⟨?_, hparts⟩, ?_⟩
    · exact List.forall_mem_cons.mpr ⟨hcollector, hmarker⟩
    · exact List.forall_mem_singleton.mpr hbase
  · rw [expansion]
    refine List.forall_mem_append.mpr ⟨hresult, ?_⟩
    exact List.forall_mem_cons.mpr ⟨hcollector, List.forall_mem_singleton.mpr hbase⟩

/-- A longhand is read side by side, when the concise rule is made of words. -/
theorem parse_longhand_iff
    (hwords : ∀ word ∈ r.parts ++ r.result, Text.isWord word.toList = true) :
    ComponentRule.parse (r.longhand collector base) = .ok rule ↔
      ArrowFree (r.longhandLhs collector base).toList ∧
        ArrowFree (r.longhandRhs collector base).toList ∧
        Pattern.parse (r.longhandLhs collector base) = .ok rule.lhs ∧
        Template.parse (r.longhandRhs collector base) = .ok rule.rhs := by
  obtain ⟨hlhs, hrhs⟩ := isWord_of_mem_expansion hwords collector base
  have hl : Inked (r.longhandLhs collector base).toList :=
    Text.inked_unwords hlhs (by simp [expansion])
  have hr : Inked (r.longhandRhs collector base).toList :=
    Text.inked_unwords hrhs (by simp [expansion])
  exact ComponentRule.parse_arrow_iff hl hr

/-- The rule is printed as its longhand. -/
theorem text_of_longhand
    (hwords : ∀ word ∈ r.parts ++ r.result, Text.isWord word.toList = true)
    (h : ComponentRule.parse (r.longhand collector base) = .ok rule) :
    rule.text = r.longhand collector base := by
  obtain ⟨hlhs, hrhs⟩ := isWord_of_mem_expansion hwords collector base
  obtain ⟨-, -, hpattern, htemplate⟩ := (parse_longhand_iff hwords).mp h
  rw [ComponentRule.text, Pattern.spelled.text_eq hpattern, Template.text_of_parse htemplate,
    longhand, longhandLhs, longhandRhs, Text.words_unwords hlhs, Text.words_unwords hrhs]

theorem isWord_of_mapM_parse {words : List String} {tokens : List Token}
    (h : words.mapM Token.parse = .ok tokens) :
    ∀ word ∈ words, Text.isWord word.toList = true := by
  intro word hword
  obtain ⟨t, -, ht⟩ := Outcome.exists_of_mem_of_mapM h hword
  exact Token.isWord_of_parse ht

/-- The rule of a concise line is printed with the parts and the result of the line, between a
collector and a base variable of which no token of the line has the name. -/
theorem expansion_is_hygienic {line : String} (hr : parse line = .ok r)
    (hrule : r.expand = .ok rule)
    (hindices : ∀ word ∈ r.parts ++ r.result, ∀ cls digits qualifier,
      Token.parse word = .ok (.var cls digits qualifier) →
        Nat.ofDigitChars 10 digits.toList 0 ≠ 2 ^ 64 - 1) :
    (∃ lhs rhs pieces, r.Layout line lhs rhs pieces) ∧
      ∃ k j : Nat,
        rule.text =
          Text.unwords (("o" ++ toString k) :: (if r.ordered then ["&"] else []) ++ r.parts ++
              ["i" ++ toString j]) ++ " -> " ++
            Text.unwords (r.result ++ ["o" ++ toString k, "i" ++ toString j]) ∧
        ∀ word ∈ r.parts ++ r.result, ∃ t, Token.parse word = .ok t ∧
          t.name ≠ "o" ++ toString k ∧ t.name ≠ "i" ++ toString j := by
  obtain ⟨tokens, hread, hlonghand⟩ := expand_eq_ok_iff.mp hrule
  refine ⟨exists_layout hr, _, _, text_of_longhand (isWord_of_mapM_parse hread) hlonghand, ?_⟩
  have hlast : ∀ cls digits qualifier, .var cls digits qualifier ∈ tokens →
      Nat.ofDigitChars 10 digits.toList 0 + 1 ≠ indexBound := by
    intro cls digits qualifier hmem
    obtain ⟨word, hword, hparse⟩ := Outcome.exists_of_mem_mapM hread hmem
    have hne := hindices word hword cls digits qualifier hparse
    rw [indexBound]
    omega
  intro word hword
  obtain ⟨t, ht, hparse⟩ := Outcome.exists_of_mem_of_mapM hread hword
  exact ⟨t, hparse, name_ne_fresh hread (hlast .collector) ht,
    name_ne_fresh hread (hlast .ingredient) ht⟩

/-- A line with a collector of its own, with zeros in front of an index and with an index that
is not counted. -/
def spicing : ConciseRule where
  ordered := false
  parts := ["o1", "i0099", "i18446744073709551620"]
  result := ["warm", "o1"]

def spiced : ComponentRule where
  lhs := .plain ⟨[⟨"2", none⟩, ⟨"1", none⟩], .loose, [.var .ingredient "0099" none,
    .var .ingredient "18446744073709551620" none, .var .ingredient "100" none]⟩
  rhs := ⟨[.constant "warm", .var .collector "1" none, .var .collector "2" none,
    .var .ingredient "100" none]⟩
  closed := by decide

/-- The longhand of this line takes the next collector and the next base variable. -/
theorem expansion_is_hygienic_spicing :
    parse "o1 + i0099 + i18446744073709551620 = warm o1" = .ok spicing ∧
      spicing.expand = .ok spiced ∧
      spiced.text = "o2 o1 i0099 i18446744073709551620 i100 -> warm o1 o2 i100" ∧
      ∃ k j : Nat, ∀ word ∈ spicing.parts ++ spicing.result, ∃ t, Token.parse word = .ok t ∧
        t.name ≠ "o" ++ toString k ∧ t.name ≠ "i" ++ toString j := by
  have hr : parse "o1 + i0099 + i18446744073709551620 = warm o1" = .ok spicing := rfl
  have hread : (spicing.parts ++ spicing.result).mapM Token.parse =
      .ok [.var .collector "1" none, .var .ingredient "0099" none,
        .var .ingredient "18446744073709551620" none, .constant "warm",
        .var .collector "1" none] := rfl
  have hrule : spicing.expand = .ok spiced :=
    expand_eq_ok_iff.mpr ⟨_, hread, (parse_longhand_iff (isWord_of_mapM_parse hread)).mpr
      ⟨Text.cutAtPair_eq_none.mp rfl, Text.cutAtPair_eq_none.mp rfl, rfl, rfl⟩⟩
  have hindices : ∀ word ∈ spicing.parts ++ spicing.result, ∀ cls digits qualifier,
      Token.parse word = .ok (.var cls digits qualifier) →
        Nat.ofDigitChars 10 digits.toList 0 ≠ 2 ^ 64 - 1 := by
    intro word hword cls digits qualifier hparse
    obtain ⟨t, ht, hparse'⟩ := Outcome.exists_of_mem_of_mapM hread hword
    obtain rfl := Except.ok.inj (hparse.symm.trans hparse')
    simp only [List.mem_cons, Token.var.injEq, reduceCtorEq, List.not_mem_nil, or_false,
      false_or] at ht
    rcases ht with ⟨-, rfl, -⟩ | ⟨-, rfl, -⟩ | ⟨-, rfl, -⟩ | ⟨-, rfl, -⟩ <;> decide
  obtain ⟨-, k, j, -, hfresh⟩ := expansion_is_hygienic hr hrule hindices
  exact ⟨hr, hrule, rfl, k, j, hfresh⟩

end longhand

end ConciseRule

end Simmer
