import Simmer.Rule.Reader
import Simmer.Proofs.Printing.Groups
import Simmer.Proofs.Grammar.Pattern
import Simmer.Proofs.Rule.Closed
import Simmer.Proofs.Text.Cut

/-!
Rules in print. The sides of a rule hold no arrow, and neither do their prints: these put
blanks, parentheses and joins around words of the source, never an arrow. So a printed rule is
cut at the arrow that the print puts in, and its sides are read as they were. The kind of the
rule comes back as well, since it is decided by ink that printing keeps.
-/
namespace Simmer

open Text (Inked ink trim)

/-- No arrow stands in the text. -/
def ArrowFree (cs : List Char) : Prop :=
  ¬ ['-', '>'] <:+: cs

theorem ArrowFree.of_isInfix {cs ds : List Char} (h : ArrowFree ds) (hcs : cs <:+: ds) :
    ArrowFree cs :=
  fun harrow => h (harrow.trans hcs)

/-- One side of a rule as it is printed, and the text that it was read from. -/
structure Side (source print : List Char) : Prop where
  inked : Inked print
  arrowFree : ArrowFree print
  chars : ∀ c ∈ print, c ∈ source ∨ c ∈ [' ', '(', ')', '+']

section side

variable {α : Type} {parse : String → Except Fault α} {text : α → String} {s : String}

/-- Words are joined without putting an arrow together. -/
theorem arrowFree_unwords_iff {words : List String} :
    ArrowFree (Text.unwords words).toList ↔ ∀ word ∈ words, ArrowFree word.toList := by
  rw [Text.toList_unwords]
  constructor
  · intro h word hword
    exact h.of_isInfix (Text.infix_intercalate _ (List.mem_map_of_mem hword))
  · intro h harrow
    obtain ⟨w, hw, harrow⟩ :=
      Text.pair_infix_intercalate (by decide) (by decide) (by simp) harrow
    obtain ⟨word, hword, rfl⟩ := List.mem_map.mp hw
    exact h word hword harrow

theorem ArrowFree.unwords_words (h : ArrowFree s.toList) :
    ArrowFree (Text.unwords (Text.words s)).toList :=
  arrowFree_unwords_iff.mpr fun _ hword => h.of_isInfix (Text.infix_of_mem_words hword)

theorem ArrowFree.wrap {cs : List Char} (h : ArrowFree cs) : ArrowFree (Groups.wrap cs) := by
  intro harrow
  rw [Groups.wrap, Text.pair_infix_cons, or_iff_right fun hopen => by simpa using hopen.1,
    Text.pair_infix_append_cons (by decide) (by decide)] at harrow
  exact h (harrow.resolve_right (by simp))

theorem Side.of_spelled (hspelled : Spelled parse text) {x : α} (h : parse s = .ok x)
    (harrow : ArrowFree s.toList) : Side s.toList (text x).toList where
  inked := hspelled.inked h
  arrowFree := hspelled.text_eq h ▸ harrow.unwords_words
  chars c hc := by
    rw [hspelled.text_eq h] at hc
    rcases Text.mem_unwords hc with rfl | ⟨word, hword, hc⟩
    · exact .inr (by simp)
    · exact .inl ((Text.infix_of_mem_words hword).mem hc)

theorem Side.of_write (hspelled : Spelled parse text) {texts : List String} {xs : List α}
    (hsplit : Groups.split s = .ok texts) (hparse : texts.mapM parse = .ok xs)
    (harrow : ArrowFree s.toList) :
    Side s.toList (Groups.write (xs.map text)).toList := by
  have hside : ∀ x ∈ xs, Side s.toList (text x).toList := by
    intro x hx
    obtain ⟨element, helement, hx⟩ := Outcome.exists_of_mem_mapM hparse hx
    obtain ⟨piece, hpiece, -, htrim⟩ := Groups.cutFrom_of_split hsplit helement
    have hinfix : element.toList <:+: s.toList := htrim ▸ (Text.trim_isInfix piece).trans hpiece
    obtain ⟨hinked, hfree, hchars⟩ := Side.of_spelled hspelled hx (harrow.of_isInfix hinfix)
    exact ⟨hinked, hfree, fun c hc => (hchars c hc).imp_left fun h => hinfix.mem h⟩
  rw [Groups.toList_write, List.map_map, List.map_map]
  refine ⟨?_, ?_, ?_⟩
  · apply Inked.intercalate
    · intro w hw
      obtain ⟨x, -, rfl⟩ := List.mem_map.mp hw
      exact Groups.inked_wrap _
    · simpa using Groups.ne_nil_of_mapM hsplit hparse
  · intro harrow
    obtain ⟨w, hw, harrow⟩ :=
      Text.pair_infix_intercalate (by decide) (by decide) (by simp) harrow
    obtain ⟨x, hx, rfl⟩ := List.mem_map.mp hw
    exact (hside x hx).arrowFree.wrap harrow
  · intro c hc
    rcases Text.mem_of_mem_intercalate hc with hc | ⟨w, hw, hc⟩
    · have hsubset : [' ', '+', ' '] ⊆ [' ', '(', ')', '+'] := by simp
      exact .inr (hsubset hc)
    · obtain ⟨x, hx, rfl⟩ := List.mem_map.mp hw
      rcases Groups.mem_wrap.mp hc with rfl | hc | rfl
      · exact .inr (by simp)
      · exact (hside x hx).chars c hc
      · exact .inr (by simp)

end side

namespace Rule

theorem isMixtureSide_eq {lhs : String} (h : trim lhs.toList = lhs.toList) :
    isMixtureSide lhs =
      ((ink lhs.toList).head? == some '(' || Groups.hasOuterJoin 0 (ink lhs.toList)) := by
  rw [isMixtureSide, Groups.hasOuterJoin_ink, ← Text.head?_trim, h]

theorem splitArrow_eq_ok_iff {text lhs rhs : String} :
    splitArrow text = .ok (lhs, rhs) ↔
      ∃ before after, Text.cutAtPair '-' '>' text.toList = some (before, after) ∧
        ArrowFree after ∧ lhs.toList = trim before ∧ rhs.toList = trim after := by
  unfold splitArrow
  constructor
  · intro h
    split at h
    · cases h
    · rename_i before after hcut
      split at h
      · cases h
      · rename_i hsecond
        obtain ⟨rfl, rfl⟩ := Prod.mk.inj (Except.ok.inj h)
        rw [Text.isSome_cutAtPair] at hsecond
        exact ⟨before, after, hcut, hsecond, String.toList_ofList, String.toList_ofList⟩
  · rintro ⟨before, after, hcut, hsecond, hlhs, hrhs⟩
    have hnone : Text.cutAtPair '-' '>' after = none := Text.cutAtPair_eq_none.mpr hsecond
    rw [hcut]
    simp [hnone, ← hlhs, ← hrhs]

/-- What the two sides of a text are: trimmed pieces of it without an arrow. -/
structure Cut (text lhs rhs : String) : Prop where
  lhs_isInfix : lhs.toList <:+: text.toList
  rhs_isInfix : rhs.toList <:+: text.toList
  lhs_arrowFree : ArrowFree lhs.toList
  rhs_arrowFree : ArrowFree rhs.toList
  lhs_trimmed : trim lhs.toList = lhs.toList

/-- The sides of a text are what stands around its only arrow, trimmed. -/
theorem exists_of_splitArrow {text lhs rhs : String} (h : splitArrow text = .ok (lhs, rhs)) :
    ∃ left right, text = left ++ "->" ++ right ∧ ArrowFree left.toList ∧
      ArrowFree right.toList ∧ lhs.toList = trim left.toList ∧ rhs.toList = trim right.toList := by
  obtain ⟨before, after, hcut, hafter, hlhs, hrhs⟩ := splitArrow_eq_ok_iff.mp h
  have hbefore : ArrowFree before := Text.not_infix_of_cutAtPair hcut
  rw [← String.toList_ofList (l := before)] at hbefore hlhs
  rw [← String.toList_ofList (l := after)] at hafter hrhs
  refine ⟨String.ofList before, String.ofList after, ?_, hbefore, hafter, hlhs, hrhs⟩
  rw [← String.toList_inj, Text.cutAtPair_eq_some hcut]
  simp

theorem cut_of_splitArrow {text lhs rhs : String} (h : splitArrow text = .ok (lhs, rhs)) :
    Cut text lhs rhs := by
  obtain ⟨before, after, hcut, hrest, hlhs, hrhs⟩ := splitArrow_eq_ok_iff.mp h
  obtain ⟨hbefore, hafter⟩ := Text.infix_of_cutAtPair hcut
  have hfirst : ArrowFree before := Text.not_infix_of_cutAtPair hcut
  constructor
  · rw [hlhs]
    exact (Text.trim_isInfix before).trans hbefore
  · rw [hrhs]
    exact (Text.trim_isInfix after).trans hafter
  · rw [hlhs]
    exact hfirst.of_isInfix (Text.trim_isInfix before)
  · rw [hrhs]
    exact hrest.of_isInfix (Text.trim_isInfix after)
  · rw [hlhs, Text.trim_trim]

/-- The left side ends at the first arrow, at or in front of any other one. -/
theorem exists_prefix_of_splitArrow {text lhs rhs : String} {front back : List Char}
    (h : splitArrow text = .ok (lhs, rhs)) (htext : text.toList = front ++ '-' :: '>' :: back) :
    ∃ before, before <+: front ∧ lhs.toList = trim before := by
  obtain ⟨before, after, hcut, -, hlhs, -⟩ := splitArrow_eq_ok_iff.mp h
  rw [htext] at hcut
  exact ⟨before, Text.prefix_of_cutAtPair hcut, hlhs⟩

theorem toList_arrow (lhs rhs : String) :
    (lhs ++ " -> " ++ rhs).toList = (lhs.toList ++ [' ']) ++ '-' :: '>' :: ' ' :: rhs.toList := by
  simp

/-- A text written around an arrow has two sides when neither side holds another one. -/
theorem splitArrow_arrow_iff {left right lhs rhs : String} :
    splitArrow (left ++ " -> " ++ right) = .ok (lhs, rhs) ↔
      ArrowFree left.toList ∧ ArrowFree right.toList ∧ lhs.toList = Text.trim left.toList ∧
        rhs.toList = Text.trim right.toList := by
  have hleft : ArrowFree (left.toList ++ [' ']) ↔ ArrowFree left.toList := by
    rw [ArrowFree, ArrowFree, Text.pair_infix_append_cons (by decide) (by decide)]
    simp
  have hright : ArrowFree (' ' :: right.toList) ↔ ArrowFree right.toList := by
    rw [ArrowFree, ArrowFree, Text.pair_infix_cons]
    simp
  rw [splitArrow_eq_ok_iff, toList_arrow, ← hleft, ← hright]
  constructor
  · rintro ⟨before, after, hcut, hafter, hlhs, hrhs⟩
    obtain ⟨rfl, rfl⟩ := Text.eq_of_cutAtPair_append (by decide) hcut hafter
    rw [Text.trim_concat_blank rfl] at hlhs
    rw [Text.trim_cons_blank rfl] at hrhs
    exact ⟨Text.not_infix_of_cutAtPair hcut, hafter, hlhs, hrhs⟩
  · rintro ⟨hbefore, hafter, hlhs, hrhs⟩
    refine ⟨_, _, Text.cutAtPair_append (by decide) hbefore _, hafter, ?_, ?_⟩
    · rw [hlhs, Text.trim_concat_blank rfl]
    · rw [hrhs, Text.trim_cons_blank rfl]

/-- Two sides in print are cut at the arrow between them. -/
theorem splitArrow_print {s t : List Char} {lhs rhs : String} (hl : Side s lhs.toList)
    (hr : Side t rhs.toList) : splitArrow (lhs ++ " -> " ++ rhs) = .ok (lhs, rhs) :=
  splitArrow_arrow_iff.mpr ⟨hl.arrowFree, hr.arrowFree, hl.inked.2.symm, hr.inked.2.symm⟩

/-- The reader of rules of this kind reads the rule from the text. -/
def ReadAs (text : String) : Rule → Prop
  | component r => ComponentRule.parse text = .ok r
  | mixture r => MixtureRule.parse text = .ok r

/-- The left side decides which of the two readers is asked. -/
theorem parse_eq_ok_iff {text : String} {r : Rule} :
    parse text = .ok r ↔
      r.ReadAs text ∧ ∃ lhs rhs, splitArrow text = .ok (lhs, rhs) ∧
        isMixtureSide lhs = !r.isComponent := by
  rw [parse, Outcome.bind_eq_ok_iff]
  constructor
  · rintro ⟨⟨lhs, rhs⟩, hsplit, h⟩
    dsimp only at h
    split at h
    · rename_i hkind
      obtain ⟨rule, hrule, h⟩ := Outcome.bind_eq_ok_iff.mp h
      obtain rfl := Except.ok.inj h
      exact ⟨hrule, lhs, rhs, hsplit, hkind⟩
    · rename_i hkind
      obtain ⟨rule, hrule, h⟩ := Outcome.bind_eq_ok_iff.mp h
      obtain rfl := Except.ok.inj h
      exact ⟨hrule, lhs, rhs, hsplit, eq_false_of_ne_true hkind⟩
  · rintro ⟨hread, lhs, rhs, hsplit, hkind⟩
    refine ⟨(lhs, rhs), hsplit, ?_⟩
    simp only [hkind]
    cases r with
    | component rule => exact Outcome.bind_eq_ok_iff.mpr ⟨rule, hread, rfl⟩
    | mixture rule => exact Outcome.bind_eq_ok_iff.mpr ⟨rule, hread, rfl⟩

/-- What a printed rule is to the text it was read from: it is read again as the same rule, it
is trimmed, and it has no characters but those of the text and those that printing puts in. -/
structure Reread (text : String) (r : Rule) : Prop where
  parse_text : parse r.text = .ok r
  inked : Inked r.text.toList
  chars : ∀ c ∈ r.text.toList, c ∈ text.toList ∨ c ∈ [' ', '(', ')', '+', '-', '>']

/-- The print of a rule is made of the prints of its sides. -/
theorem Reread.of_sides {text lhs rhs : String} {s t : List Char} {r : Rule}
    (htext : r.text = lhs ++ " -> " ++ rhs) (hparse : parse r.text = .ok r)
    (hl : Side s lhs.toList) (hr : Side t rhs.toList) (hs : s <:+: text.toList)
    (ht : t <:+: text.toList) : Reread text r := by
  have hseps : [' ', '(', ')', '+'] ⊆ [' ', '(', ')', '+', '-', '>'] := by simp
  have harrow : [' ', '-', '>', ' '] ⊆ [' ', '(', ')', '+', '-', '>'] := by simp
  have htoList : r.text.toList = lhs.toList ++ [' ', '-', '>', ' '] ++ rhs.toList := by
    simp [htext]
  refine ⟨hparse, ?_, fun c hc => ?_⟩
  · rw [htoList]
    exact hl.inked.append _ hr.inked
  · rw [htoList, List.mem_append, List.mem_append] at hc
    rcases hc with (hc | hc) | hc
    · exact (hl.chars c hc).imp hs.mem (fun h => hseps h)
    · exact .inr (harrow hc)
    · exact (hr.chars c hc).imp ht.mem (fun h => hseps h)

end Rule

namespace ComponentRule

theorem parse_eq_ok_iff {text : String} {r : ComponentRule} :
    parse text = .ok r ↔
      ∃ lhs rhs, Rule.splitArrow text = .ok (lhs, rhs) ∧ Pattern.parse lhs = .ok r.lhs ∧
        Template.parse rhs = .ok r.rhs := by
  rw [parse, Outcome.bind_eq_ok_iff]
  constructor
  · rintro ⟨⟨lhs, rhs⟩, hsplit, h⟩
    obtain ⟨pattern, hpattern, h⟩ := Outcome.bind_eq_ok_iff.mp h
    obtain ⟨template, htemplate, h⟩ := Outcome.bind_eq_ok_iff.mp h
    obtain ⟨rfl, rfl⟩ := of?_eq_ok_iff.mp h
    exact ⟨lhs, rhs, hsplit, hpattern, htemplate⟩
  · rintro ⟨lhs, rhs, hsplit, hpattern, htemplate⟩
    refine ⟨(lhs, rhs), hsplit, Outcome.bind_eq_ok_iff.mpr ⟨r.lhs, hpattern, ?_⟩⟩
    exact Outcome.bind_eq_ok_iff.mpr ⟨r.rhs, htemplate, of?_eq_ok_iff.mpr ⟨rfl, rfl⟩⟩

/-- Sides that begin and end with ink are read as they stand around the arrow. -/
theorem parse_arrow_iff {left right : String} {r : ComponentRule}
    (hleft : Inked left.toList) (hright : Inked right.toList) :
    parse (left ++ " -> " ++ right) = .ok r ↔
      ArrowFree left.toList ∧ ArrowFree right.toList ∧ Pattern.parse left = .ok r.lhs ∧
        Template.parse right = .ok r.rhs := by
  rw [parse_eq_ok_iff]
  constructor
  · rintro ⟨lhs, rhs, hsplit, hlhs, hrhs⟩
    obtain ⟨hl, hr, hlhseq, hrhseq⟩ := Rule.splitArrow_arrow_iff.mp hsplit
    rw [hleft.2, String.toList_inj] at hlhseq
    rw [hright.2, String.toList_inj] at hrhseq
    exact ⟨hl, hr, hlhseq ▸ hlhs, hrhseq ▸ hrhs⟩
  · rintro ⟨hl, hr, hlhs, hrhs⟩
    exact ⟨left, right, Rule.splitArrow_arrow_iff.mpr ⟨hl, hr, hleft.2.symm, hright.2.symm⟩, hlhs,
      hrhs⟩

section print

variable {text : String} {r : ComponentRule}

theorem exists_sides (h : parse text = .ok r) :
    ∃ lhs rhs, Rule.splitArrow text = .ok (lhs, rhs) ∧ Side lhs.toList r.lhs.text.toList ∧
      Side rhs.toList r.rhs.text.toList := by
  obtain ⟨lhs, rhs, hsplit, hlhs, hrhs⟩ := parse_eq_ok_iff.mp h
  have hcut := Rule.cut_of_splitArrow hsplit
  exact ⟨lhs, rhs, hsplit, Side.of_spelled Pattern.spelled hlhs hcut.lhs_arrowFree,
    Side.of_spelled Template.spelled hrhs hcut.rhs_arrowFree⟩

theorem splitArrow_print (h : parse text = .ok r) :
    Rule.splitArrow r.text = .ok (r.lhs.text, r.rhs.text) := by
  obtain ⟨_, _, -, hl, hr⟩ := exists_sides h
  exact Rule.splitArrow_print hl hr

theorem parse_print (h : parse text = .ok r) : parse r.text = .ok r := by
  obtain ⟨_, _, -, hlhs, hrhs⟩ := parse_eq_ok_iff.mp h
  exact parse_eq_ok_iff.mpr ⟨_, _, splitArrow_print h, Pattern.spelled.parse_text hlhs,
    Template.spelled.parse_text hrhs⟩

/-- A component rule is printed as the words of its two sides. -/
theorem text_of_parse (h : parse text = .ok r) :
    ∃ left right, text = left ++ "->" ++ right ∧ ArrowFree left.toList ∧
      ArrowFree right.toList ∧
        r.text = Text.unwords (Text.words left) ++ " -> " ++ Text.unwords (Text.words right) := by
  obtain ⟨lhs, rhs, hsplit, hlhs, hrhs⟩ := parse_eq_ok_iff.mp h
  obtain ⟨left, right, htext, hleft, hright, hl, hr⟩ := Rule.exists_of_splitArrow hsplit
  refine ⟨left, right, htext, hleft, hright, ?_⟩
  rw [ComponentRule.text, Pattern.spelled.text_eq hlhs, Template.spelled.text_eq hrhs,
    Text.words_of_trim hl, Text.words_of_trim hr]

/-- A component rule whose left side does not look like that of a mixture rule is read again. -/
theorem reread (h : parse text = .ok r) (hkind : Rule.isMixtureSide r.lhs.text = false) :
    Rule.Reread text (.component r) := by
  obtain ⟨lhs, rhs, hsplit, hl, hr⟩ := exists_sides h
  have hcut := Rule.cut_of_splitArrow hsplit
  have hparse : Rule.parse r.text = .ok (.component r) :=
    Rule.parse_eq_ok_iff.mpr ⟨parse_print h, _, _, splitArrow_print h, hkind⟩
  exact Rule.Reread.of_sides rfl hparse hl hr hcut.lhs_isInfix hcut.rhs_isInfix

end print

end ComponentRule

theorem MixturePattern.parse_eq_ok_iff {text : String} {p : MixturePattern} :
    parse text = .ok p ↔
      ∃ texts, Groups.split text = .ok texts ∧ texts.mapM Pattern.parse = .ok p.elements := by
  rw [parse, Outcome.bind_eq_ok_iff]
  constructor
  · rintro ⟨texts, hsplit, h⟩
    obtain ⟨elements, helements, h⟩ := Outcome.bind_eq_ok_iff.mp h
    obtain rfl := Except.ok.inj h
    exact ⟨texts, hsplit, helements⟩
  · rintro ⟨texts, hsplit, helements⟩
    exact ⟨texts, hsplit, Outcome.bind_eq_ok_iff.mpr ⟨p.elements, helements, rfl⟩⟩

theorem MixturePattern.parse_print {text : String} {p : MixturePattern} (h : parse text = .ok p) :
    parse p.text = .ok p := by
  obtain ⟨elements, hsplit, helements⟩ := parse_eq_ok_iff.mp h
  exact parse_eq_ok_iff.mpr ⟨_, Groups.split_write_of_mapM Pattern.spelled hsplit helements,
    Groups.mapM_map_text Pattern.spelled helements⟩

namespace MixtureRule

theorem parse_eq_ok_iff {text : String} {r : MixtureRule} :
    parse text = .ok r ↔
      ∃ lhs rhs texts, Rule.splitArrow text = .ok (lhs, rhs) ∧ Groups.split rhs = .ok texts ∧
        texts.mapM Template.parse = .ok r.products ∧
        MixturePattern.parse lhs = .ok r.reactants := by
  rw [parse, Outcome.bind_eq_ok_iff]
  constructor
  · rintro ⟨⟨lhs, rhs⟩, hsplit, h⟩
    obtain ⟨texts, htexts, h⟩ := Outcome.bind_eq_ok_iff.mp h
    obtain ⟨products, hproducts, h⟩ := Outcome.bind_eq_ok_iff.mp h
    obtain ⟨reactants, hreactants, h⟩ := Outcome.bind_eq_ok_iff.mp h
    obtain ⟨rfl, rfl⟩ := of?_eq_ok_iff.mp h
    exact ⟨lhs, rhs, texts, hsplit, htexts, hproducts, hreactants⟩
  · rintro ⟨lhs, rhs, texts, hsplit, htexts, hproducts, hreactants⟩
    refine ⟨(lhs, rhs), hsplit, Outcome.bind_eq_ok_iff.mpr ⟨texts, htexts, ?_⟩⟩
    refine Outcome.bind_eq_ok_iff.mpr ⟨r.products, hproducts, ?_⟩
    exact Outcome.bind_eq_ok_iff.mpr ⟨r.reactants, hreactants, of?_eq_ok_iff.mpr ⟨rfl, rfl⟩⟩

section print

variable {text : String} {r : MixtureRule}

theorem exists_sides (h : parse text = .ok r) :
    ∃ lhs rhs, Rule.splitArrow text = .ok (lhs, rhs) ∧ Side lhs.toList r.reactants.text.toList ∧
      Side rhs.toList (Groups.write (r.products.map Template.text)).toList := by
  obtain ⟨lhs, rhs, texts, hsplit, htexts, hproducts, hlhs⟩ := parse_eq_ok_iff.mp h
  obtain ⟨elements, helements, hreactants⟩ := MixturePattern.parse_eq_ok_iff.mp hlhs
  have hcut := Rule.cut_of_splitArrow hsplit
  exact ⟨lhs, rhs, hsplit, Side.of_write Pattern.spelled helements hreactants hcut.lhs_arrowFree,
    Side.of_write Template.spelled htexts hproducts hcut.rhs_arrowFree⟩

theorem splitArrow_print (h : parse text = .ok r) :
    Rule.splitArrow r.text =
      .ok (r.reactants.text, Groups.write (r.products.map Template.text)) := by
  obtain ⟨_, _, -, hl, hr⟩ := exists_sides h
  exact Rule.splitArrow_print hl hr

theorem parse_print (h : parse text = .ok r) : parse r.text = .ok r := by
  obtain ⟨_, _, texts, -, htexts, hproducts, hlhs⟩ := parse_eq_ok_iff.mp h
  refine parse_eq_ok_iff.mpr ⟨_, _, _, splitArrow_print h,
    Groups.split_write_of_mapM Template.spelled htexts hproducts,
    Groups.mapM_map_text Template.spelled hproducts, MixturePattern.parse_print hlhs⟩

theorem isMixtureSide_print (h : parse text = .ok r) :
    Rule.isMixtureSide r.reactants.text = true := by
  obtain ⟨_, _, _, -, -, -, hlhs⟩ := parse_eq_ok_iff.mp h
  obtain ⟨elements, helements, hreactants⟩ := MixturePattern.parse_eq_ok_iff.mp hlhs
  obtain ⟨first, others, hcons⟩ :=
    List.exists_cons_of_ne_nil (Groups.ne_nil_of_mapM helements hreactants)
  rw [Rule.isMixtureSide, MixturePattern.text, hcons, List.map_cons, Groups.head?_write]
  rfl

theorem reread (h : parse text = .ok r) : Rule.Reread text (.mixture r) := by
  obtain ⟨lhs, rhs, hsplit, hl, hr⟩ := exists_sides h
  have hcut := Rule.cut_of_splitArrow hsplit
  have hparse : Rule.parse r.text = .ok (.mixture r) :=
    Rule.parse_eq_ok_iff.mpr ⟨parse_print h, _, _, splitArrow_print h, isMixtureSide_print h⟩
  exact Rule.Reread.of_sides rfl hparse hl hr hcut.lhs_isInfix hcut.rhs_isInfix

end print

end MixtureRule

namespace Rule

/-- A rule that was read is read again from its print, as a rule of the same kind. -/
theorem reread {text : String} {r : Rule} (h : parse text = .ok r) : Reread text r := by
  obtain ⟨hread, lhs, rhs, hsplit, hkind⟩ := parse_eq_ok_iff.mp h
  cases r with
  | mixture rule => exact MixtureRule.reread hread
  | component rule =>
    apply ComponentRule.reread hread
    obtain ⟨lhs', rhs', hsplit', hlhs, -⟩ := ComponentRule.parse_eq_ok_iff.mp hread
    obtain ⟨rfl, rfl⟩ := Prod.mk.inj (Except.ok.inj (hsplit.symm.trans hsplit'))
    -- the kind is decided by the ink of the left side, and its print has the same ink
    have htrimmed := (cut_of_splitArrow hsplit).lhs_trimmed
    rw [isMixtureSide_eq (Pattern.spelled.inked hlhs).2, Pattern.spelled.ink_eq hlhs,
      ← isMixtureSide_eq htrimmed]
    exact hkind

/-- Each of the three readers of rules gives back what it read when it reads the print. A
component rule is printed as the words of the texts around its arrow. -/
theorem rules_come_back_from_print :
    (∀ (text : String) (r : Rule), parse text = .ok r → parse r.text = .ok r) ∧
      (∀ (text : String) (r : ComponentRule),
        ComponentRule.parse text = .ok r → ComponentRule.parse r.text = .ok r) ∧
      (∀ (text : String) (r : MixtureRule),
        MixtureRule.parse text = .ok r → MixtureRule.parse r.text = .ok r) ∧
      ∀ (text : String) (r : ComponentRule),
        ComponentRule.parse text = .ok r ∨ parse text = .ok (.component r) →
          ∃ left right, text = left ++ "->" ++ right ∧ ArrowFree left.toList ∧
            ArrowFree right.toList ∧
              r.text =
                Text.unwords (Text.words left) ++ " -> " ++ Text.unwords (Text.words right) := by
  refine ⟨fun _ _ h => (reread h).parse_text, fun _ _ => ComponentRule.parse_print,
    fun _ _ => MixtureRule.parse_print, fun text r h => ?_⟩
  rcases h with hrule | hrule
  · exact ComponentRule.text_of_parse hrule
  · exact ComponentRule.text_of_parse (parse_eq_ok_iff.mp hrule).1

/-- Tea from leaves and water; a token of the tea holds parentheses and a join. -/
def brewing : MixtureRule where
  reactants := ⟨[.plain ⟨[⟨"1", none⟩], .loose, [.constant "Leaf"]⟩,
    .plain ⟨[], .loose, [.constant "Water"]⟩]⟩
  products := [⟨[.var .collector "1" none, .constant "(hot+black)", .constant "Tea"]⟩]
  closed := by decide

/-- Grain that is dried, with halves of an arrow in its tokens. -/
def drying : ComponentRule where
  lhs := .plain ⟨[⟨"1", none⟩], .loose, [.constant "wet-", .var .ingredient "1" none]⟩
  rhs := ⟨[.constant ">dry", .var .collector "1" none, .var .ingredient "1" none]⟩
  closed := by decide

theorem rules_come_back_from_print_tea :
    (parse "o1  Leaf+Water->o1 (hot+black) Tea" = .ok (.mixture brewing) ∧
        brewing.text = "(o1 Leaf) + (Water) -> (o1 (hot+black) Tea)" ∧
        parse (mixture brewing).text = .ok (mixture brewing) ∧
        MixtureRule.parse brewing.text = .ok brewing) ∧
      parse " o1 wet-  i1->>dry o1 i1" = .ok (.component drying) ∧
        drying.text = "o1 wet- i1 -> >dry o1 i1" ∧
        ComponentRule.parse drying.text = .ok drying ∧
        ∃ left right, " o1 wet-  i1->>dry o1 i1" = left ++ "->" ++ right ∧
          drying.text =
            Text.unwords (Text.words left) ++ " -> " ++ Text.unwords (Text.words right) := by
  obtain ⟨hrule, hcomponent, hmixture, hwords⟩ := rules_come_back_from_print
  have hbrewing : parse "o1  Leaf+Water->o1 (hot+black) Tea" = .ok (.mixture brewing) := by
    decide +kernel
  have hdrying : parse " o1 wet-  i1->>dry o1 i1" = .ok (.component drying) := by
    decide +kernel
  have hbrewing' : MixtureRule.parse "o1  Leaf+Water->o1 (hot+black) Tea" = .ok brewing :=
    (parse_eq_ok_iff.mp hbrewing).1
  have hdrying' : ComponentRule.parse " o1 wet-  i1->>dry o1 i1" = .ok drying :=
    (parse_eq_ok_iff.mp hdrying).1
  obtain ⟨left, right, htext, -, -, hprint⟩ := hwords _ _ (.inr hdrying)
  exact ⟨⟨hbrewing, by decide +kernel, hrule _ _ hbrewing, hmixture _ _ hbrewing'⟩, hdrying,
    by decide +kernel, hcomponent _ _ hdrying', left, right, htext, hprint⟩

end Rule

end Simmer
