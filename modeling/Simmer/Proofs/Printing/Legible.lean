import Simmer.Proofs.Printing.RuleSet

/-!
Definitions whose print defines them again. Rules and aliases are read from texts of their own,
too, and these may hold what a line does not: behind a number sign a line has a comment, and it
looks for an arrow and for an equals sign before it takes itself for an alias. So the print of a
rule that was read is a line for it when it has no number sign, and that of an alias when it has
neither of the three.
-/
namespace Simmer

open Text (Inked trim)

namespace Text

/-- All blanks are spaces. -/
def Spaced (cs : List Char) : Prop :=
  ∀ c ∈ cs, isBlank c = true → c = ' '

variable {cs ds sep : List Char} {ws : List (List Char)}

theorem Spaced.of_isWord (h : isWord cs = true) : Spaced cs := by
  intro c hc hblank
  rw [(isWord_iff.mp h).2 c hc] at hblank
  cases hblank

theorem Spaced.append (hcs : Spaced cs) (hds : Spaced ds) : Spaced (cs ++ ds) :=
  List.forall_mem_append.mpr ⟨hcs, hds⟩

theorem Spaced.intercalate (hsep : Spaced sep) (h : ∀ w ∈ ws, Spaced w) :
    Spaced (sep.intercalate ws) := by
  intro c hc
  rcases mem_of_mem_intercalate hc with hc | ⟨w, hw, hc⟩
  · exact hsep c hc
  · exact h w hw c hc

theorem Spaced.no_break (h : Spaced cs) : '\n' ∉ cs := by
  intro hbreak
  exact absurd (h '\n' hbreak rfl) (by decide)

end Text

open Text (Spaced)

section print

variable {α : Type} {parse : String → Except Fault α} {text : α → String} {s : String}

theorem Spelled.spaced (hspelled : Spelled parse text) {x : α} (h : parse s = .ok x) :
    Spaced (text x).toList := by
  rw [hspelled.text_eq h, Text.toList_unwords]
  apply Spaced.intercalate (by simp [Spaced])
  intro w hw
  obtain ⟨word, hword, rfl⟩ := List.mem_map.mp hw
  exact .of_isWord (Text.isWord_of_mem_words hword)

theorem Groups.spaced_write (hspelled : Spelled parse text) {texts : List String} {xs : List α}
    (hparse : texts.mapM parse = .ok xs) : Spaced (Groups.write (xs.map text)).toList := by
  rw [Groups.toList_write, List.map_map, List.map_map]
  apply Spaced.intercalate (by simp [Spaced, Text.isBlank])
  intro w hw
  obtain ⟨x, hx, rfl⟩ := List.mem_map.mp hw
  obtain ⟨element, -, helement⟩ := Outcome.exists_of_mem_mapM hparse hx
  intro c hc hblank
  rcases Groups.mem_wrap.mp hc with rfl | hc | rfl
  · cases hblank
  · exact hspelled.spaced helement c hc hblank
  · cases hblank

end print

theorem ComponentRule.spaced {text : String} {r : ComponentRule} (h : parse text = .ok r) :
    Spaced r.text.toList := by
  obtain ⟨lhs, rhs, -, hlhs, hrhs⟩ := parse_eq_ok_iff.mp h
  rw [ComponentRule.text, String.toList_append, String.toList_append]
  refine ((Pattern.spelled.spaced hlhs).append ?_).append (Template.spelled.spaced hrhs)
  simp [Spaced, Text.isBlank]

theorem MixtureRule.spaced {text : String} {r : MixtureRule} (h : parse text = .ok r) :
    Spaced r.text.toList := by
  obtain ⟨lhs, rhs, texts, -, -, hproducts, hlhs⟩ := parse_eq_ok_iff.mp h
  obtain ⟨elements, -, hreactants⟩ := MixturePattern.parse_eq_ok_iff.mp hlhs
  rw [MixtureRule.text, String.toList_append, String.toList_append]
  refine ((Groups.spaced_write Pattern.spelled hreactants).append ?_).append
    (Groups.spaced_write Template.spelled hproducts)
  simp [Spaced, Text.isBlank]

theorem Rule.spaced {text : String} {r : Rule} (h : parse text = .ok r) :
    Spaced r.text.toList := by
  obtain ⟨hread, -⟩ := parse_eq_ok_iff.mp h
  cases r with
  | component rule => exact ComponentRule.spaced hread
  | mixture rule => exact MixtureRule.spaced hread

theorem TagAlias.Plain.spaced {a : TagAlias} (h : a.Plain) : Spaced a.text.toList := by
  rw [TagAlias.toList_text]
  refine ((Spaced.of_isWord h.tag_word).append ?_).append (Spaced.intercalate ?_ ?_)
  · simp [Spaced, Text.isBlank]
  · simp [Spaced, Text.isBlank]
  · intro w hw
    obtain ⟨member, hmember, rfl⟩ := List.mem_map.mp hw
    exact .of_isWord (h.members_word member hmember)

namespace Definition

/-- A definition is printed with the characters of its line, those that write out a concise rule,
and those between the parts of a rule or an alias. -/
theorem mem_text_of_parse {line : String} {d : Definition} (h : parse line = .ok d) {c : Char}
    (hc : c ∈ d.text.toList) :
    c ∈ line.toList ∨ ConciseRule.Added c ∨ c ∈ ['(', ')', '+', ':', ','] := by
  have hrule : ∀ c ∈ [' ', '(', ')', '+', '-', '>'],
      ConciseRule.Added c ∨ c ∈ ['(', ')', '+', ':', ','] := by
    simp [ConciseRule.Added]
  have halias : ∀ c ∈ [' ', ':', ','], ConciseRule.Added c ∨ c ∈ ['(', ')', '+', ':', ','] := by
    simp [ConciseRule.Added]
  unfold parse at h
  dsimp only at h
  split at h
  · obtain ⟨r, hr, rfl⟩ := Outcome.map_eq_ok_iff.mp h
    exact ((Rule.reread hr).chars c hc).imp_right (hrule c)
  split at h
  · obtain ⟨concise, hconcise, h⟩ := Outcome.bind_eq_ok_iff.mp h
    obtain ⟨r, hexpand, h⟩ := Outcome.bind_eq_ok_iff.mp h
    obtain rfl := Except.ok.inj h
    have hfrom := ConciseRule.readFrom_of_parse hconcise
    obtain ⟨collector, base, hr⟩ := ConciseRule.exists_longhand hexpand
    have hreread := ComponentRule.reread hr (ConciseRule.isMixtureSide_longhand hfrom hr)
    rcases hreread.chars c hc with hlonghand | hseparator
    · exact (hfrom.mem_longhand hlonghand).elim (fun h => .inr (.inl h)) .inl
    · exact .inr (hrule c hseparator)
  split at h
  · obtain ⟨a, ha, rfl⟩ := Outcome.map_eq_ok_iff.mp h
    exact ((TagAlias.readFrom_of_parse ha).mem_text hc).imp_right (halias c)
  · cases h

/-- No line defines something that has a number sign in print. -/
theorem no_comment_of_ofLine {raw : List Char} {d : Definition} (h : ofLine? raw = .ok (some d)) :
    '#' ∉ d.text.toList := by
  have hcomment : '#' ∉ trim (raw.takeWhile (· ≠ '#')) := fun hc => by
    simpa using List.mem_takeWhile_imp ((Text.trim_isInfix _).mem hc)
  unfold ofLine? at h
  split at h
  · cases h
  · rename_i c cs hline
    obtain ⟨e, hparse, he⟩ := Outcome.map_eq_ok_iff.mp h
    obtain rfl := Option.some.inj he
    intro hc
    rcases mem_text_of_parse hparse hc with hmem | hadded | hseparator
    · rw [String.toList_ofList, ← hline] at hmem
      exact hcomment hmem
    · revert hadded
      simp [ConciseRule.Added]
    · simp at hseparator

/-- A trimmed print on one line is a line for the definition when it reads so as a whole, and has
no comment. -/
theorem stable_iff {d : Definition} (hinked : Inked d.text.toList)
    (hbreak : '\n' ∉ d.text.toList) :
    d.Stable ↔ '#' ∉ d.text.toList ∧ parse d.text = .ok d := by
  constructor
  · intro h
    have hcomment := no_comment_of_ofLine h.ofLine
    refine ⟨hcomment, ?_⟩
    have hall : d.text.toList.takeWhile (· ≠ '#') = d.text.toList :=
      List.takeWhile_eq_self_iff.mpr fun c hc => by
        simpa using fun hc' : c = '#' => hcomment (hc' ▸ hc)
    have hline := h.ofLine
    rw [ofLine?, hall, hinked.2] at hline
    split at hline
    · cases hline
    · rename_i c cs hcons
      obtain ⟨e, hparse, he⟩ := Outcome.map_eq_ok_iff.mp hline
      obtain rfl := Option.some.inj he
      rwa [← hcons, String.ofList_toList] at hparse
  · rintro ⟨hcomment, hparse⟩
    exact .of_parse hparse hinked hcomment hbreak

theorem stable_rule_iff {text : String} {r : Rule} (h : Rule.parse text = .ok r) :
    Stable (.rule r) ↔ '#' ∉ r.text.toList := by
  have hreread := Rule.reread h
  have hiff := stable_iff (d := .rule r) hreread.inked (Rule.spaced h).no_break
  exact hiff.trans (and_iff_left (parse_of_rule hreread.parse_text))

theorem stable_alias_iff {text : String} {a : TagAlias} (h : TagAlias.parse text = .ok a) :
    Stable (.tagAlias a) ↔
      '#' ∉ a.text.toList ∧ '=' ∉ a.text.toList ∧ ArrowFree a.text.toList := by
  have hfrom := TagAlias.readFrom_of_parse h
  have hiff := stable_iff (d := .tagAlias a) hfrom.inked hfrom.toPlain.spaced.no_break
  refine hiff.trans (and_congr_right fun _ => ⟨fun hparse => ?_, fun ⟨hequals, harrow⟩ => ?_⟩)
  · change parse a.text = .ok (.tagAlias a) at hparse
    -- With an arrow or an equals sign, what is read is a rule and no alias.
    unfold parse at hparse
    dsimp only at hparse
    split at hparse
    · obtain ⟨r, -, hr⟩ := Outcome.map_eq_ok_iff.mp hparse
      cases hr
    rename_i harrow
    split at hparse
    · obtain ⟨concise, -, hparse⟩ := Outcome.bind_eq_ok_iff.mp hparse
      obtain ⟨r, -, hr⟩ := Outcome.bind_eq_ok_iff.mp hparse
      cases hr
    · rename_i hequals
      rw [Text.isSome_cutAtPair] at harrow
      exact ⟨hequals, harrow⟩
  · exact parse_of_alias harrow hequals hfrom.toPlain.parse_text

end Definition

end Simmer
