import Simmer.RuleSet.Reader
import Simmer.Proofs.Printing.Rule
import Mathlib.Data.List.TakeWhile

/-!
Definitions in print. The print of an alias has a colon and neither an arrow nor an equals
sign, and the print of a rule has an arrow; so the form of a definition is told apart as it was
on its line. A concise rule is printed as the component rule it stands for, whose left side
begins with its collector and has no join, so that it is not taken for that of a mixture rule.
-/
namespace Simmer

open Text (Inked ink trim)

namespace TagAlias

/-- The tag and the members are words, and a cut of the print finds them. -/
structure Plain (a : TagAlias) : Prop where
  tag_word : Text.isWord a.tag.toList = true
  tag_colon : ':' ∉ a.tag.toList
  members_ne_nil : a.members ≠ []
  members_word : ∀ member ∈ a.members, Text.isWord member.toList = true
  members_comma : ∀ member ∈ a.members, ',' ∉ member.toList

/-- What an alias is to the text it was read from. -/
structure ReadFrom (text : String) (a : TagAlias) : Prop extends Plain a where
  tag_isInfix : a.tag.toList <:+: text.toList
  members_isInfix : ∀ member ∈ a.members, member.toList <:+: text.toList

theorem readFrom_of_parse {text : String} {a : TagAlias} (h : parse text = .ok a) :
    ReadFrom text a := by
  unfold parse at h
  split at h
  · cases h
  rename_i before after hcut
  dsimp only at h
  split at h
  · cases h
  rename_i htag
  split at h
  · cases h
  rename_i hmembers
  obtain rfl := Except.ok.inj h
  rw [Bool.not_eq_true, Bool.not_eq_false'] at htag hmembers
  obtain ⟨hbefore, hafter⟩ := Text.infix_of_cutAt hcut
  have hpieces : ∀ member ∈ ((Text.piecesAt ',' after).map trim).map String.ofList,
      ∃ piece ∈ Text.piecesAt ',' after, member.toList = trim piece := by
    intro member hmember
    rw [List.map_map] at hmember
    obtain ⟨piece, hpiece, rfl⟩ := List.mem_map.mp hmember
    exact ⟨piece, hpiece, String.toList_ofList⟩
  constructor
  · constructor
    · rwa [String.toList_ofList]
    · rw [String.toList_ofList]
      exact fun hcolon => Text.not_mem_of_cutAt hcut ((Text.trim_isInfix before).mem hcolon)
    · simpa using Text.piecesAt_ne_nil ',' after
    · intro member hmember
      obtain ⟨piece, hpiece, heq⟩ := hpieces member hmember
      rw [heq]
      exact List.all_eq_true.mp hmembers _ (List.mem_map_of_mem hpiece)
    · intro member hmember hcomma
      obtain ⟨piece, hpiece, heq⟩ := hpieces member hmember
      rw [heq] at hcomma
      exact Text.not_mem_of_mem_piecesAt hpiece ((Text.trim_isInfix piece).mem hcomma)
  · rw [String.toList_ofList]
    exact (Text.trim_isInfix before).trans hbefore
  · intro member hmember
    obtain ⟨piece, hpiece, heq⟩ := hpieces member hmember
    rw [heq]
    exact ((Text.trim_isInfix piece).trans (Text.infix_of_mem_piecesAt hpiece)).trans hafter

theorem toList_text (a : TagAlias) :
    a.text.toList = a.tag.toList ++ [' ', ':', ' '] ++
      [',', ' '].intercalate (a.members.map String.toList) := by
  simp [text, String.toList_intercalate]

theorem map_trim_piecesAt {ms : List (List Char)} (hne : ms ≠ [])
    (hword : ∀ m ∈ ms, Text.isWord m = true) (hcomma : ∀ m ∈ ms, ',' ∉ m) :
    (Text.piecesAt ',' (' ' :: [',', ' '].intercalate ms)).map trim = ms := by
  induction ms with
  | nil => exact absurd rfl hne
  | cons m ms ih =>
    obtain ⟨hm, hms⟩ := List.forall_mem_cons.mp hword
    obtain ⟨hmc, hmsc⟩ := List.forall_mem_cons.mp hcomma
    have htrim : trim (' ' :: m) = m := by
      rw [Text.trim_cons_blank rfl, (Inked.of_isWord hm).2]
    have hblank : ',' ∉ ' ' :: m := List.not_mem_cons_of_ne_of_not_mem (by decide) hmc
    cases ms with
    | nil =>
      rw [List.intercalate_singleton, Text.piecesAt_of_not_mem hblank, List.map_singleton, htrim]
    | cons n ms =>
      have hjoined : ' ' :: [',', ' '].intercalate (m :: n :: ms) =
          (' ' :: m) ++ ',' :: ' ' :: [',', ' '].intercalate (n :: ms) := by simp
      rw [hjoined, Text.piecesAt_append hblank, List.map_cons, htrim,
        ih (List.cons_ne_nil _ _) hms hmsc]

theorem Plain.parse_text {a : TagAlias} (h : a.Plain) : parse a.text = .ok a := by
  have hcut : Text.cutAt ':' a.text.toList = some (a.tag.toList ++ [' '],
      ' ' :: [',', ' '].intercalate (a.members.map String.toList)) := by
    have hcolon : ':' ∉ a.tag.toList ++ [' '] := by simp [h.tag_colon]
    rw [← Text.cutAt_append hcolon, toList_text]
    simp
  have htag : trim (a.tag.toList ++ [' ']) = a.tag.toList := by
    rw [Text.trim_concat_blank rfl, (Inked.of_isWord h.tag_word).2]
  have hmembers : (Text.piecesAt ','
      (' ' :: [',', ' '].intercalate (a.members.map String.toList))).map trim =
      a.members.map String.toList :=
    map_trim_piecesAt (by simpa using h.members_ne_nil) (by simpa using h.members_word)
      (by simpa using h.members_comma)
  have hall : (a.members.map String.toList).all Text.isWord = true := by
    simpa using h.members_word
  simp only [parse, hcut, htag, hmembers, h.tag_word, hall]
  simp [Function.comp_def]

namespace ReadFrom

variable {text : String} {a : TagAlias}

theorem inked (h : ReadFrom text a) : Inked a.text.toList := by
  rw [toList_text]
  refine (Inked.of_isWord h.tag_word).append _ (Inked.intercalate _ ?_ ?_)
  · intro w hw
    obtain ⟨member, hmember, rfl⟩ := List.mem_map.mp hw
    exact Inked.of_isWord (h.members_word member hmember)
  · simpa using h.members_ne_nil

theorem arrowFree (h : ReadFrom text a) (harrow : ArrowFree text.toList) :
    ArrowFree a.text.toList := by
  intro hprint
  rw [toList_text, List.append_assoc, List.cons_append,
    Text.pair_infix_append_cons (by decide) (by decide),
    Text.pair_infix_append_foreign (by simp)] at hprint
  rcases hprint with hprint | hprint
  · exact harrow (hprint.trans h.tag_isInfix)
  · obtain ⟨w, hw, hprint⟩ :=
      Text.pair_infix_intercalate (by decide) (by decide) (by simp) hprint
    obtain ⟨member, hmember, rfl⟩ := List.mem_map.mp hw
    exact harrow (hprint.trans (h.members_isInfix member hmember))

theorem mem_text (h : ReadFrom text a) {c : Char} (hc : c ∈ a.text.toList) :
    c ∈ text.toList ∨ c ∈ [' ', ':', ','] := by
  have hcolon : [' ', ':', ' '] ⊆ [' ', ':', ','] := by simp
  have hcomma : [',', ' '] ⊆ [' ', ':', ','] := by simp
  rw [toList_text, List.mem_append, List.mem_append] at hc
  rcases hc with (hc | hc) | hc
  · exact .inl (h.tag_isInfix.mem hc)
  · exact .inr (hcolon hc)
  · rcases Text.mem_of_mem_intercalate hc with hc | ⟨w, hw, hc⟩
    · exact .inr (hcomma hc)
    · obtain ⟨member, hmember, rfl⟩ := List.mem_map.mp hw
      exact .inl ((h.members_isInfix member hmember).mem hc)

end ReadFrom

end TagAlias

namespace ConciseRule

/-- The parts and the result of a concise rule come from its line, and no part has a join. -/
structure ReadFrom (line : String) (r : ConciseRule) : Prop where
  parts_isInfix : ∀ part ∈ r.parts, part.toList <:+: line.toList
  parts_join : ∀ part ∈ r.parts, '+' ∉ part.toList
  result_isInfix : ∀ word ∈ r.result, word.toList <:+: line.toList

theorem splitParts_eq_ok_iff {line : String} {lhs : List Char} {ordered : Bool}
    {pieces : List (List Char)} :
    splitParts line lhs = .ok (ordered, pieces) ↔
      ordered = false ∧ ¬ ['+', '>'] <:+: lhs ∧ pieces = Text.piecesAt '+' lhs ∨
        ordered = true ∧ ['+', '>'] <:+: lhs ∧ pieces = Text.piecesAtPair '+' '>' lhs ∧
          ∀ piece ∈ pieces, '+' ∉ piece := by
  have hone : (Text.piecesAtPair '+' '>' lhs).length ≤ 1 ↔ ¬ ['+', '>'] <:+: lhs :=
    Text.length_piecesAtPair_le_one_iff
  unfold splitParts
  dsimp only
  by_cases hjoin : ['+', '>'] <:+: lhs
  · rw [if_neg (mt hone.mp (not_not.mpr hjoin))]
    constructor
    · intro h
      split at h
      · cases h
      · rename_i hmixed
        obtain ⟨rfl, rfl⟩ := Prod.mk.inj (Except.ok.inj h)
        exact .inr ⟨rfl, hjoin, rfl, by simpa using hmixed⟩
    · rintro (⟨-, hnone, -⟩ | ⟨rfl, -, rfl, hfree⟩)
      · exact absurd hjoin hnone
      · exact if_neg (by simpa using hfree)
  · rw [if_pos (hone.mpr hjoin)]
    constructor
    · intro h
      obtain ⟨rfl, rfl⟩ := Prod.mk.inj (Except.ok.inj h)
      exact .inl ⟨rfl, hjoin, rfl⟩
    · rintro (⟨rfl, -, rfl⟩ | ⟨-, hsome, -⟩)
      · rfl
      · exact absurd hsome hjoin

/-- A line is a concise rule when it has one equals sign, words behind it and one word in each
piece in front of it. -/
theorem parse_eq_ok_iff {line : String} {r : ConciseRule} :
    parse line = .ok r ↔ ∃ lhs rhs pieces, Text.cutAt '=' line.toList = some (lhs, rhs) ∧
      Text.wordsOf rhs ≠ [] ∧ '=' ∉ rhs ∧ splitParts line lhs = .ok (r.ordered, pieces) ∧
        (∀ piece ∈ pieces, Text.isWord (trim piece) = true) ∧
          r.parts.map String.toList = pieces.map trim ∧
            r.result.map String.toList = Text.wordsOf rhs := by
  have hchars : ∀ {words : List String} {chars : List (List Char)},
      words.map String.toList = chars ↔ words = chars.map String.ofList := by
    intro words chars
    constructor
    · rintro rfl
      simp [Function.comp_def]
    · rintro rfl
      simp [Function.comp_def]
  simp only [hchars]
  unfold parse
  constructor
  · intro h
    split at h
    · cases h
    rename_i lhs rhs hcut
    split at h
    · cases h
    rename_i hresult
    rw [not_or] at hresult
    obtain ⟨⟨ordered, pieces⟩, hpieces, h⟩ := Outcome.bind_eq_ok_iff.mp h
    dsimp only at h
    split at h
    · rename_i hwords
      obtain rfl := Except.ok.inj h
      exact ⟨lhs, rhs, pieces, hcut, hresult.1, hresult.2, hpieces, by simpa using hwords, rfl, rfl⟩
    · cases h
  · rintro ⟨lhs, rhs, pieces, hcut, hne, hequals, hpieces, hwords, hparts, hresult⟩
    rw [hcut]
    dsimp only
    rw [if_neg (not_or.mpr ⟨hne, hequals⟩), hpieces]
    obtain ⟨ordered, parts, result⟩ := r
    cases hparts
    cases hresult
    exact if_pos (by simpa using hwords)

theorem splitParts_spec {line : String} {lhs : List Char} {ordered : Bool}
    {pieces : List (List Char)} (h : splitParts line lhs = .ok (ordered, pieces)) :
    ∀ piece ∈ pieces, piece <:+: lhs ∧ '+' ∉ piece := by
  intro piece hpiece
  rcases splitParts_eq_ok_iff.mp h with ⟨-, -, rfl⟩ | ⟨-, -, rfl, hfree⟩
  · exact ⟨Text.infix_of_mem_piecesAt hpiece, Text.not_mem_of_mem_piecesAt hpiece⟩
  · exact ⟨Text.infix_of_mem_piecesAtPair hpiece, hfree piece hpiece⟩

theorem readFrom_of_parse {line : String} {r : ConciseRule} (h : parse line = .ok r) :
    ReadFrom line r := by
  obtain ⟨lhs, rhs, pieces, hcut, -, -, hpieces, -, hparts, hresult⟩ := parse_eq_ok_iff.mp h
  have hspec := splitParts_spec hpieces
  obtain ⟨hlhs, hrhs⟩ := Text.infix_of_cutAt hcut
  have hpart : ∀ part ∈ r.parts, ∃ piece ∈ pieces, trim piece = part.toList := by
    intro part hpart
    have hmem : part.toList ∈ pieces.map trim := hparts ▸ List.mem_map_of_mem hpart
    exact List.mem_map.mp hmem
  constructor
  · intro part hmem
    obtain ⟨piece, hpiece, heq⟩ := hpart part hmem
    rw [← heq]
    exact ((Text.trim_isInfix piece).trans (hspec piece hpiece).1).trans hlhs
  · intro part hmem hjoin
    obtain ⟨piece, hpiece, heq⟩ := hpart part hmem
    rw [← heq] at hjoin
    exact (hspec piece hpiece).2 ((Text.trim_isInfix piece).mem hjoin)
  · intro word hword
    have hmem : word.toList ∈ Text.wordsOf rhs := hresult ▸ List.mem_map_of_mem hword
    exact (Text.infix_of_mem_wordsOf hmem).trans hrhs

def longhandLhs (r : ConciseRule) (collector base : Nat) : String :=
  Text.unwords (r.expansion ("o" ++ toString collector) ("i" ++ toString base)).1

def longhandRhs (r : ConciseRule) (collector base : Nat) : String :=
  Text.unwords (r.expansion ("o" ++ toString collector) ("i" ++ toString base)).2

/-- The text that a concise rule is short for, with a collector and a base of these indices. -/
def longhand (r : ConciseRule) (collector base : Nat) : String :=
  r.longhandLhs collector base ++ " -> " ++ r.longhandRhs collector base

theorem exists_longhand {r : ConciseRule} {rule : ComponentRule} (h : r.expand = .ok rule) :
    ∃ collector base, ComponentRule.parse (r.longhand collector base) = .ok rule := by
  obtain ⟨tokens, -, h⟩ := Outcome.bind_eq_ok_iff.mp h
  exact ⟨freshIndex .collector tokens, freshIndex .ingredient tokens, h⟩

/-- The characters that the longhand is written with beside those of the concise rule. -/
def Added (c : Char) : Prop :=
  c ∈ ['o', 'i', '&', ' ', '-', '>'] ∨ c.isDigit = true

theorem added_of_mem_indexed (letter : Char) {index : Nat} {c : Char} (hletter : Added letter)
    (h : c ∈ (String.singleton letter ++ toString index).toList) : Added c := by
  rw [String.toList_append, List.mem_append, Nat.toString_eq_ofList_toDigits,
    String.toList_ofList] at h
  rcases h with h | h
  · obtain rfl : c = letter := by simpa using h
    exact hletter
  · exact .inr (Nat.isDigit_of_mem_toDigits (by decide) (by decide) h)

variable {r : ConciseRule} {line : String} {collector base : Nat} {c : Char}

theorem mem_longhandLhs (h : c ∈ (r.longhandLhs collector base).toList) :
    Added c ∨ ∃ part ∈ r.parts, c ∈ part.toList := by
  rcases Text.mem_unwords h with rfl | ⟨word, hword, hc⟩
  · exact .inl (.inl (by simp))
  · simp only [expansion, List.mem_append, List.mem_cons, List.not_mem_nil, or_false] at hword
    rcases hword with ((rfl | hword) | hword) | rfl
    · exact .inl (added_of_mem_indexed 'o' (.inl (by simp)) hc)
    · split at hword
      · obtain rfl := List.mem_singleton.mp hword
        obtain rfl : c = '&' := by simpa [Strictness.marker] using hc
        exact .inl (.inl (by simp))
      · simp at hword
    · exact .inr ⟨word, hword, hc⟩
    · exact .inl (added_of_mem_indexed 'i' (.inl (by simp)) hc)

theorem mem_longhandRhs (h : c ∈ (r.longhandRhs collector base).toList) :
    Added c ∨ ∃ word ∈ r.result, c ∈ word.toList := by
  rcases Text.mem_unwords h with rfl | ⟨word, hword, hc⟩
  · exact .inl (.inl (by simp))
  · simp only [expansion, List.mem_append, List.mem_cons, List.not_mem_nil, or_false] at hword
    rcases hword with hword | rfl | rfl
    · exact .inr ⟨word, hword, hc⟩
    · exact .inl (added_of_mem_indexed 'o' (.inl (by simp)) hc)
    · exact .inl (added_of_mem_indexed 'i' (.inl (by simp)) hc)

theorem ReadFrom.mem_longhand (hr : ReadFrom line r)
    (h : c ∈ (r.longhand collector base).toList) : Added c ∨ c ∈ line.toList := by
  have harrow : ∀ d ∈ [' ', '-', '>'], Added d := by simp [Added]
  rw [longhand, Rule.toList_arrow] at h
  simp only [List.mem_append, List.mem_cons, List.not_mem_nil, or_false] at h
  rcases h with (h | rfl) | rfl | rfl | rfl | h
  · rcases mem_longhandLhs h with h | ⟨part, hpart, h⟩
    · exact .inl h
    · exact .inr ((hr.parts_isInfix part hpart).mem h)
  · exact .inl (harrow _ (by simp))
  · exact .inl (harrow _ (by simp))
  · exact .inl (harrow _ (by simp))
  · exact .inl (harrow _ (by simp))
  · rcases mem_longhandRhs h with h | ⟨word, hword, h⟩
    · exact .inl h
    · exact .inr ((hr.result_isInfix word hword).mem h)

/-- The longhand begins with its collector. -/
theorem exists_longhandLhs (r : ConciseRule) (collector base : Nat) :
    ∃ rest, (r.longhandLhs collector base).toList = 'o' :: rest := by
  obtain ⟨rest, hrest⟩ := Text.prefix_intercalate [' '] ("o" ++ toString collector).toList
    (((if r.ordered then [Strictness.ordered.marker] else []) ++ r.parts ++
      ["i" ++ toString base]).map String.toList)
  refine ⟨(toString collector).toList ++ rest, ?_⟩
  rw [longhandLhs, Text.toList_unwords]
  exact hrest.symm.trans (by simp)

/-- The left side of a longhand does not look like that of a mixture rule. -/
theorem isMixtureSide_longhand (hr : ReadFrom line r) {rule : ComponentRule}
    (h : ComponentRule.parse (r.longhand collector base) = .ok rule) :
    Rule.isMixtureSide rule.lhs.text = false := by
  obtain ⟨lhs, rhs, hsplit, hlhs, -⟩ := ComponentRule.parse_eq_ok_iff.mp h
  obtain ⟨before, hbefore, htrim⟩ :=
    Rule.exists_prefix_of_splitArrow hsplit (Rule.toList_arrow _ _)
  have hink : ink rule.lhs.text.toList = ink before := by
    rw [Pattern.spelled.ink_eq hlhs, htrim, Text.ink_trim]
  rw [Rule.isMixtureSide_eq (Pattern.spelled.inked hlhs).2, hink, Bool.or_eq_false_iff]
  constructor
  · obtain ⟨rest, hrest⟩ := exists_longhandLhs r collector base
    rw [hrest] at hbefore
    cases before with
    | nil =>
      -- nothing in front of the arrow, and no pattern is read from that
      have hempty : lhs = "" := by
        rw [← String.toList_inj, htrim]
        rfl
      exact absurd (hempty ▸ rfl) (Pattern.spelled.words_ne_nil hlhs)
    | cons d before =>
      obtain ⟨rfl, -⟩ := List.cons_prefix_cons.mp hbefore
      rfl
  · apply Groups.hasOuterJoin_of_not_mem
    intro hjoin
    have hmem := hbefore.mem (List.mem_filter.mp hjoin).1
    rw [List.mem_append] at hmem
    rcases hmem with hmem | hmem
    · rcases mem_longhandLhs hmem with hadded | ⟨part, hpart, hmem⟩
      · revert hadded
        simp [Added]
      · exact hr.parts_join part hpart hmem
    · simp at hmem

end ConciseRule

namespace Definition

def text : Definition → String
  | rule r => r.text
  | tagAlias a => a.text

/-- A definition whose print is a line that defines it. -/
structure Stable (d : Definition) : Prop where
  no_break : '\n' ∉ d.text.toList
  ofLine : ofLine? d.text.toList = .ok (some d)

theorem parse_of_rule {s : String} {r : Rule} (h : Rule.parse s = .ok r) :
    parse s = .ok (.rule r) := by
  obtain ⟨-, lhs, rhs, hsplit, -⟩ := Rule.parse_eq_ok_iff.mp h
  obtain ⟨before, after, hcut, -⟩ := Rule.splitArrow_eq_ok_iff.mp hsplit
  rw [parse, hcut, Option.isSome_some, if_pos rfl, h]
  rfl

theorem parse_of_alias {s : String} {a : TagAlias} (harrow : ArrowFree s.toList)
    (hequals : '=' ∉ s.toList) (h : TagAlias.parse s = .ok a) : parse s = .ok (.tagAlias a) := by
  have hcolon : ':' ∈ s.toList := by
    by_contra hno
    rw [TagAlias.parse, Text.cutAt_eq_none.mpr hno] at h
    cases h
  have hnone : (Text.cutAtPair '-' '>' s.toList).isSome = false := by
    rw [Text.cutAtPair_eq_none.mpr harrow]
    rfl
  rw [parse, hnone, if_neg Bool.false_ne_true, if_neg hequals, if_pos hcolon, h]
  rfl

/-- A line without a comment and without blanks at its ends is read as it stands. -/
theorem Stable.of_parse {d : Definition} (h : parse d.text = .ok d) (hinked : Inked d.text.toList)
    (hcomment : '#' ∉ d.text.toList) (hbreak : '\n' ∉ d.text.toList) : Stable d := by
  refine ⟨hbreak, ?_⟩
  have hall : d.text.toList.takeWhile (· ≠ '#') = d.text.toList :=
    List.takeWhile_eq_self_iff.mpr fun c hc => by
      simpa using fun hc' : c = '#' => hcomment (hc' ▸ hc)
  rw [ofLine?, hall, hinked.2]
  split
  · rename_i hnil
    exact absurd hnil hinked.1
  · rename_i c cs hcons
    rw [← hcons, String.ofList_toList, h]
    rfl

theorem stable_of_reread {text : String} {r : Rule} (h : Rule.Reread text r)
    (hcomment : '#' ∉ text.toList) (hbreak : '\n' ∉ text.toList) : Stable (.rule r) := by
  refine Stable.of_parse (parse_of_rule h.parse_text) h.inked ?_ ?_
  · exact fun hc => (h.chars _ hc).elim hcomment (by simp)
  · exact fun hc => (h.chars _ hc).elim hbreak (by simp)

/-- The longhand of a concise rule has no number sign and no line break of its own. -/
theorem stable_of_concise {line : String} {concise : ConciseRule} {rule : ComponentRule}
    (hparse : ConciseRule.parse line = .ok concise) (hexpand : concise.expand = .ok rule)
    (hcomment : '#' ∉ line.toList) (hbreak : '\n' ∉ line.toList) :
    Stable (.rule (.component rule)) := by
  have hfrom := ConciseRule.readFrom_of_parse hparse
  obtain ⟨collector, base, hrule⟩ := ConciseRule.exists_longhand hexpand
  have hreread := ComponentRule.reread hrule (ConciseRule.isMixtureSide_longhand hfrom hrule)
  refine stable_of_reread hreread ?_ ?_
  · exact fun hc => (hfrom.mem_longhand hc).elim (by simp [ConciseRule.Added]) hcomment
  · exact fun hc => (hfrom.mem_longhand hc).elim (by simp [ConciseRule.Added]) hbreak

theorem stable_of_alias {line : String} {a : TagAlias} (h : TagAlias.parse line = .ok a)
    (harrow : ArrowFree line.toList) (hequals : '=' ∉ line.toList)
    (hcomment : '#' ∉ line.toList) (hbreak : '\n' ∉ line.toList) : Stable (.tagAlias a) := by
  have hfrom := TagAlias.readFrom_of_parse h
  have hnew : ∀ c, c ∉ line.toList → c ∉ [' ', ':', ','] → c ∉ a.text.toList :=
    fun c hline hseps hc => (hfrom.mem_text hc).elim hline hseps
  have hparse : parse a.text = .ok (.tagAlias a) :=
    parse_of_alias (hfrom.arrowFree harrow) (hnew '=' hequals (by simp)) hfrom.parse_text
  exact Stable.of_parse hparse hfrom.inked (hnew '#' hcomment (by simp))
    (hnew '\n' hbreak (by simp))

theorem stable_of_parse {line : String} {d : Definition} (h : parse line = .ok d)
    (hcomment : '#' ∉ line.toList) (hbreak : '\n' ∉ line.toList) : Stable d := by
  unfold parse at h
  dsimp only at h
  split at h
  · obtain ⟨r, hrule, rfl⟩ := Outcome.map_eq_ok_iff.mp h
    exact stable_of_reread (Rule.reread hrule) hcomment hbreak
  rename_i harrow
  split at h
  · obtain ⟨concise, hconcise, h⟩ := Outcome.bind_eq_ok_iff.mp h
    obtain ⟨rule, hexpand, h⟩ := Outcome.bind_eq_ok_iff.mp h
    obtain rfl := Except.ok.inj h
    exact stable_of_concise hconcise hexpand hcomment hbreak
  rename_i hequals
  split at h
  · obtain ⟨a, halias, rfl⟩ := Outcome.map_eq_ok_iff.mp h
    rw [Text.isSome_cutAtPair] at harrow
    exact stable_of_alias halias harrow hequals hcomment hbreak
  · cases h

/-- What a line defines is defined again by its print. -/
theorem stable_of_ofLine {raw : List Char} {d : Definition} (h : ofLine? raw = .ok (some d))
    (hbreak : '\n' ∉ raw) : Stable d := by
  have hcomment : '#' ∉ trim (raw.takeWhile (· ≠ '#')) := fun hc => by
    simpa using List.mem_takeWhile_imp ((Text.trim_isInfix _).mem hc)
  have hbreak' : '\n' ∉ trim (raw.takeWhile (· ≠ '#')) := fun hc =>
    hbreak ((List.takeWhile_sublist _).mem ((Text.trim_isInfix _).mem hc))
  unfold ofLine? at h
  split at h
  · cases h
  · rename_i c cs hline
    rw [hline] at hcomment hbreak'
    obtain ⟨e, hparse, he⟩ := Outcome.map_eq_ok_iff.mp h
    obtain rfl := Option.some.inj he
    exact stable_of_parse hparse (by rwa [String.toList_ofList]) (by rwa [String.toList_ofList])

end Definition

end Simmer
