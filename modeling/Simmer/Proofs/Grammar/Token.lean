import Simmer.Token.Reader
import Simmer.Proofs.Grammar.Condition
import Simmer.Proofs.Text.Words

/-!
The grammar of tokens. A variable has a text when it has digits and when its qualifier, if there
is one, is well formed; a constant has a text when it is a word without a colon that does not
look like a variable. The tokens that are read are these and no others, each from its print. So
the kind of a text decides whether it is read and as what, and its faults are all its own.
-/
namespace Simmer.Token

theorem ofLetter?_eq_some_iff {c : Char} {cls : VariableClass} :
    VariableClass.ofLetter? c = some cls ↔ c = cls.letter := by
  constructor
  · intro h
    unfold VariableClass.ofLetter? at h
    split at h
    · rename_i hc
      obtain rfl := Option.some.inj h
      exact hc
    · split at h
      · rename_i hc
        obtain rfl := Option.some.inj h
        exact hc
      · split at h
        · rename_i hc
          obtain rfl := Option.some.inj h
          exact hc
        · cases h
  · rintro rfl
    cases cls <;> rfl

/-- What stands behind the digits of a variable: nothing, or a colon and its qualifier. -/
def qualifierChars : Option (List Char) → List Char
  | none => []
  | some qualifier => ':' :: qualifier

theorem splitVariable?_eq_some_iff {cs digits : List Char} {cls : VariableClass}
    {qualifier : Option (List Char)} :
    splitVariable? cs = some (cls, digits, qualifier) ↔
      digits ≠ [] ∧ (∀ d ∈ digits, d.isDigit = true) ∧
        cls.letter :: (digits ++ qualifierChars qualifier) = cs := by
  constructor
  · intro h
    cases cs with
    | nil => cases h
    | cons c cs =>
      have hcut : cs.takeWhile Char.isDigit ++ cs.dropWhile Char.isDigit = cs :=
        List.takeWhile_append_dropWhile
      have hall : ∀ d ∈ cs.takeWhile Char.isDigit, d.isDigit = true :=
        fun d hd => List.mem_takeWhile_imp hd
      rw [splitVariable?] at h
      split at h
      · cases h
      · cases h
      · rename_i found d ds hletter hdigits hrest
        simp only [Option.some.injEq, Prod.mk.injEq] at h
        obtain ⟨rfl, rfl, rfl⟩ := h
        rw [hdigits] at hall
        rw [hdigits, hrest] at hcut
        refine ⟨List.cons_ne_nil _ _, hall, ?_⟩
        rw [ofLetter?_eq_some_iff.mp hletter, qualifierChars, hcut]
      · rename_i found d ds e rest hletter hdigits hrest
        split at h
        · rename_i hcolon
          simp only [Option.some.injEq, Prod.mk.injEq] at h
          obtain ⟨rfl, rfl, rfl⟩ := h
          rw [hdigits] at hall
          rw [hdigits, hrest, hcolon] at hcut
          refine ⟨List.cons_ne_nil _ _, hall, ?_⟩
          rw [ofLetter?_eq_some_iff.mp hletter, qualifierChars, hcut]
        · cases h
  · rintro ⟨hne, hall, rfl⟩
    obtain ⟨d, ds, rfl⟩ := List.exists_cons_of_ne_nil hne
    have hletter : VariableClass.ofLetter? cls.letter = some cls :=
      ofLetter?_eq_some_iff.mpr rfl
    have hcolon : Char.isDigit ':' = false := rfl
    rw [splitVariable?, List.takeWhile_append_of_pos hall, List.dropWhile_append_of_pos hall,
      hletter]
    cases qualifier with
    | none => simp [qualifierChars]
    | some qualifier => simp [qualifierChars, hcolon]

theorem toList_text_var (cls : VariableClass) (digits : String) (qualifier : Option Condition) :
    (var cls digits qualifier).text.toList =
      cls.letter :: (digits.toList ++ qualifierChars (qualifier.map Condition.chars)) := by
  cases qualifier with
  | none => simp [text, name, qualifierChars]
  | some c => simp [text, name, qualifierChars, Condition.text]

/-- The tokens that have a text. -/
def WellFormed : Token → Prop
  | constant name =>
    Text.isWord name.toList = true ∧ splitVariable? name.toList = none ∧ ':' ∉ name.toList
  | var _ digits qualifier =>
    digits ≠ "" ∧ (∀ d ∈ digits.toList, d.isDigit = true) ∧ ∀ c ∈ qualifier, c.WellFormed

theorem isWord_text_var {cls : VariableClass} {digits : String} {qualifier : Option Condition}
    (h : (var cls digits qualifier).WellFormed) :
    Text.isWord (var cls digits qualifier).text.toList = true := by
  obtain ⟨-, hdigits, hqualifier⟩ := h
  have hletter : Text.isBlank cls.letter = false := by cases cls <;> rfl
  have hbehind : ∀ d ∈ qualifierChars (qualifier.map Condition.chars), Text.isBlank d = false := by
    cases qualifier with
    | none => simp [qualifierChars]
    | some c => exact List.forall_mem_cons.mpr ⟨rfl, (hqualifier c rfl).isBlank_of_mem⟩
  rw [toList_text_var, Text.isWord_iff, List.forall_mem_cons, List.forall_mem_append]
  exact ⟨List.cons_ne_nil _ _, hletter, fun d hd => Text.isBlank_of_isDigit (hdigits d hd), hbehind⟩

theorem isWord_of_parse {word : String} {t : Token} (h : parse word = .ok t) :
    Text.isWord word.toList = true := by
  unfold parse at h
  dsimp only at h
  split at h
  · cases h
  rename_i hne
  split at h
  · cases h
  rename_i hink
  exact Text.isWord_iff.mpr ⟨hne, by simpa using hink⟩

theorem parse_eq_constant_iff {word name : String} :
    parse word = .ok (.constant name) ↔
      Text.isWord word.toList = true ∧ splitVariable? word.toList = none ∧
        ':' ∉ word.toList ∧ name = word := by
  constructor
  · intro h
    have hword := isWord_of_parse h
    obtain ⟨hne, hink⟩ := Text.isWord_iff.mp hword
    rw [parse, if_neg hne, if_neg (by simpa using hink)] at h
    split at h
    · rename_i hsplit
      split at h
      · cases h
      · rename_i hcolon
        obtain rfl := Token.constant.inj (Except.ok.inj h)
        exact ⟨hword, hsplit, hcolon, rfl⟩
    · cases h
    · split at h
      · cases h
      split at h
      · cases h
      · cases h
  · rintro ⟨hword, hsplit, hcolon, rfl⟩
    obtain ⟨hne, hink⟩ := Text.isWord_iff.mp hword
    rw [parse, if_neg hne, if_neg (by simpa using hink), hsplit]
    exact if_neg hcolon

theorem parse_eq_var_iff {word digits : String} {cls : VariableClass}
    {qualifier : Option Condition} :
    parse word = .ok (.var cls digits qualifier) ↔
      Text.isWord word.toList = true ∧
        splitVariable? word.toList =
            some (cls, digits.toList, qualifier.map Condition.chars) ∧
          ∀ c ∈ qualifier, c.WellFormed := by
  constructor
  · intro h
    have hword := isWord_of_parse h
    obtain ⟨hne, hink⟩ := Text.isWord_iff.mp hword
    rw [parse, if_neg hne, if_neg (by simpa using hink)] at h
    refine ⟨hword, ?_⟩
    split at h
    · split at h
      · cases h
      · cases h
    · rename_i hsplit
      obtain ⟨rfl, rfl, rfl⟩ := Token.var.inj (Except.ok.inj h)
      rw [hsplit, String.toList_ofList]
      exact ⟨rfl, nofun⟩
    · rename_i hsplit
      split at h
      · cases h
      split at h
      · cases h
      · rename_i c hread
        obtain ⟨rfl, rfl, rfl⟩ := Token.var.inj (Except.ok.inj h)
        obtain ⟨hwell, hchars⟩ := Condition.read_eq_ok_iff_wellFormed.mp hread
        rw [hsplit, String.toList_ofList, Option.map_some, hchars]
        exact ⟨rfl, by simpa using hwell⟩
  · rintro ⟨hword, hsplit, hqualifier⟩
    obtain ⟨hne, hink⟩ := Text.isWord_iff.mp hword
    rw [parse, if_neg hne, if_neg (by simpa using hink), hsplit]
    cases qualifier with
    | none => simp only [Option.map_none, String.ofList_toList]
    | some c =>
      have hc := hqualifier c rfl
      have hread : Condition.read c.chars = .ok c :=
        Condition.read_eq_ok_iff_wellFormed.mpr ⟨hc, rfl⟩
      simp only [Option.map_some, if_neg hc.chars_ne_nil, hread, String.ofList_toList]

/-- Exactly the well-formed tokens are read, each from its print. -/
theorem parse_eq_ok_iff {word : String} {t : Token} :
    parse word = .ok t ↔ t.WellFormed ∧ t.text = word := by
  cases t with
  | constant name =>
    rw [parse_eq_constant_iff, text]
    constructor
    · rintro ⟨hword, hsplit, hcolon, rfl⟩
      exact ⟨⟨hword, hsplit, hcolon⟩, rfl⟩
    · rintro ⟨⟨hword, hsplit, hcolon⟩, rfl⟩
      exact ⟨hword, hsplit, hcolon, rfl⟩
  | var cls digits qualifier =>
    rw [parse_eq_var_iff, splitVariable?_eq_some_iff, ← toList_text_var, String.toList_inj]
    constructor
    · rintro ⟨-, ⟨hne, hdigits, htext⟩, hqualifier⟩
      exact ⟨⟨mt String.toList_eq_nil_iff.mpr hne, hdigits, hqualifier⟩, htext⟩
    · rintro ⟨hwell, rfl⟩
      have hword := isWord_text_var hwell
      obtain ⟨hne, hdigits, hqualifier⟩ := hwell
      exact ⟨hword, ⟨mt String.toList_eq_nil_iff.mp hne, hdigits, rfl⟩, hqualifier⟩

/-- A token is printed as it was written. -/
theorem text_of_parse {word : String} {t : Token} (h : parse word = .ok t) : t.text = word :=
  (parse_eq_ok_iff.mp h).2

theorem map_text_of_mapM {read : String → Except Fault Token} {words : List String}
    {tokens : List Token} (h : words.mapM read = .ok tokens)
    (hread : ∀ {word : String} {t : Token}, read word = .ok t → t.text = word) :
    tokens.map text = words := by
  have hall := Outcome.mapM_eq_ok_iff.mp h
  clear h
  induction hall with
  | nil => rfl
  | cons hword _ ih => rw [List.map_cons, hread hword, ih]

theorem exists_flaw_of_parse {word : String} {fault : Fault} (h : parse word = .error fault) :
    ∃ flaw, fault = .invalidToken word flaw := by
  unfold parse at h
  dsimp only at h
  split at h
  · exact ⟨_, (Except.error.inj h).symm⟩
  split at h
  · exact ⟨_, (Except.error.inj h).symm⟩
  split at h
  · split at h
    · exact ⟨_, (Except.error.inj h).symm⟩
    · cases h
  · cases h
  · split at h
    · exact ⟨_, (Except.error.inj h).symm⟩
    · split at h
      · exact ⟨_, (Except.error.inj h).symm⟩
      · cases h

section spelling

variable {s : String}

/-- The letter m, i or o, and one decimal digit or more. -/
def SpellsVariable (s : String) : Prop :=
  ∃ letter ∈ ['m', 'i', 'o'], ∃ digits : List Char,
    digits ≠ [] ∧ (∀ d ∈ digits, '0' ≤ d ∧ d ≤ '9') ∧ s = String.ofList (letter :: digits)

/-- A variable, a colon and a condition. -/
def SpellsQualified (s : String) : Prop :=
  ∃ name qualifier, SpellsVariable name ∧ (∃ c, Condition.parse qualifier = .ok c) ∧
    s = name ++ ":" ++ qualifier

/-- Any other text without a colon. -/
def SpellsConstant (s : String) : Prop :=
  ¬ SpellsVariable s ∧ ¬ SpellsQualified s ∧ ':' ∉ s.toList

theorem letter_mem_iff {c : Char} : c ∈ ['m', 'i', 'o'] ↔ ∃ cls : VariableClass, c = cls.letter := by
  constructor
  · intro h
    simp only [List.mem_cons, List.not_mem_nil, or_false] at h
    rcases h with rfl | rfl | rfl
    · exact ⟨.modifier, rfl⟩
    · exact ⟨.ingredient, rfl⟩
    · exact ⟨.collector, rfl⟩
  · rintro ⟨cls, rfl⟩
    cases cls <;> decide

theorem isDigit_iff {c : Char} : c.isDigit = true ↔ '0' ≤ c ∧ c ≤ '9' := by
  simp only [Char.isDigit, Bool.and_eq_true, decide_eq_true_iff]
  rfl

theorem spellsVariable_iff :
    SpellsVariable s ↔ ∃ cls digits, splitVariable? s.toList = some (cls, digits, none) := by
  simp only [SpellsVariable, splitVariable?_eq_some_iff, qualifierChars, List.append_nil,
    isDigit_iff]
  constructor
  · rintro ⟨letter, hletter, digits, hne, hdigits, rfl⟩
    obtain ⟨cls, rfl⟩ := letter_mem_iff.mp hletter
    exact ⟨cls, digits, hne, hdigits, String.toList_ofList.symm⟩
  · rintro ⟨cls, digits, hne, hdigits, hs⟩
    refine ⟨cls.letter, letter_mem_iff.mpr ⟨cls, rfl⟩, digits, hne, hdigits, ?_⟩
    rw [hs, String.ofList_toList]

theorem spellsQualified_iff :
    SpellsQualified s ↔ ∃ cls digits, ∃ c : Condition, c.WellFormed ∧
      splitVariable? s.toList = some (cls, digits, some c.chars) := by
  simp only [splitVariable?_eq_some_iff, qualifierChars]
  constructor
  · rintro ⟨name, qualifier, hname, ⟨c, hc⟩, rfl⟩
    obtain ⟨cls, digits, hsplit⟩ := spellsVariable_iff.mp hname
    obtain ⟨hne, hdigits, htext⟩ := splitVariable?_eq_some_iff.mp hsplit
    obtain ⟨hwell, rfl⟩ := Condition.parse_eq_ok_iff.mp hc
    refine ⟨cls, digits, c, hwell, hne, hdigits, ?_⟩
    simp [← htext, qualifierChars, Condition.text]
  · rintro ⟨cls, digits, c, hwell, hne, hdigits, hs⟩
    refine ⟨String.ofList (cls.letter :: digits), c.text, ?_, ⟨c, ?_⟩, ?_⟩
    · refine spellsVariable_iff.mpr ⟨cls, digits, splitVariable?_eq_some_iff.mpr ?_⟩
      exact ⟨hne, hdigits, by simp [qualifierChars]⟩
    · exact Condition.parse_eq_ok_iff.mpr ⟨hwell, rfl⟩
    · rw [← String.toList_inj, ← hs]
      simp [Condition.text]

/-- No text is a variable with a qualifier and without one. -/
theorem not_spellsVariable_of_spellsQualified (h : SpellsQualified s) : ¬ SpellsVariable s := by
  intro hvariable
  obtain ⟨cls, digits, c, -, hsplit⟩ := spellsQualified_iff.mp h
  obtain ⟨cls', digits', hsplit'⟩ := spellsVariable_iff.mp hvariable
  rw [hsplit] at hsplit'
  cases hsplit'

theorem spellsConstant_iff :
    SpellsConstant s ↔ splitVariable? s.toList = none ∧ ':' ∉ s.toList := by
  constructor
  · rintro ⟨hvariable, -, hcolon⟩
    refine ⟨?_, hcolon⟩
    cases hsplit : splitVariable? s.toList with
    | none => rfl
    | some found =>
      obtain ⟨cls, digits, qualifier⟩ := found
      cases qualifier with
      | none => exact absurd (spellsVariable_iff.mpr ⟨cls, digits, hsplit⟩) hvariable
      | some qualifier =>
        obtain ⟨-, -, htext⟩ := splitVariable?_eq_some_iff.mp hsplit
        rw [← htext] at hcolon
        simp [qualifierChars] at hcolon
  · rintro ⟨hsplit, hcolon⟩
    refine ⟨fun h => ?_, fun h => ?_, hcolon⟩
    · obtain ⟨cls, digits, hfound⟩ := spellsVariable_iff.mp h
      rw [hsplit] at hfound
      cases hfound
    · obtain ⟨cls, digits, c, -, hfound⟩ := spellsQualified_iff.mp h
      rw [hsplit] at hfound
      cases hfound

theorem exists_parse_variable_iff :
    (∃ cls digits, parse s = .ok (.var cls digits none)) ↔
      Text.isWord s.toList = true ∧ SpellsVariable s := by
  simp only [parse_eq_var_iff, spellsVariable_iff, Option.map_none]
  constructor
  · rintro ⟨cls, digits, hword, hsplit, -⟩
    exact ⟨hword, cls, digits.toList, hsplit⟩
  · rintro ⟨hword, cls, digits, hsplit⟩
    exact ⟨cls, String.ofList digits, hword, by rwa [String.toList_ofList], nofun⟩

theorem exists_parse_qualified_iff :
    (∃ cls digits, ∃ c, parse s = .ok (.var cls digits (some c))) ↔
      Text.isWord s.toList = true ∧ SpellsQualified s := by
  simp only [parse_eq_var_iff, spellsQualified_iff, Option.map_some, Option.mem_some_iff,
    forall_eq']
  constructor
  · rintro ⟨cls, digits, c, hword, hsplit, hwell⟩
    exact ⟨hword, cls, digits.toList, c, hwell, hsplit⟩
  · rintro ⟨hword, cls, digits, c, hwell, hsplit⟩
    exact ⟨cls, String.ofList digits, c, hword, by rwa [String.toList_ofList], hwell⟩

theorem parse_constant_iff :
    parse s = .ok (.constant s) ↔ Text.isWord s.toList = true ∧ SpellsConstant s := by
  rw [parse_eq_constant_iff, spellsConstant_iff]
  simp only [and_true]

theorem spellsVariable_name {cls : VariableClass} {digits : String} (hne : digits ≠ "")
    (hdigits : ∀ d ∈ digits.toList, d.isDigit = true) (qualifier : Option Condition) :
    SpellsVariable (var cls digits qualifier).name := by
  refine spellsVariable_iff.mpr ⟨cls, digits.toList, splitVariable?_eq_some_iff.mpr ?_⟩
  exact ⟨mt String.toList_eq_nil_iff.mp hne, hdigits, by simp [name, qualifierChars]⟩

theorem exists_parse_iff :
    (∃ t, parse s = .ok t) ↔
      Text.isWord s.toList = true ∧ (SpellsVariable s ∨ SpellsQualified s ∨ SpellsConstant s) := by
  constructor
  · rintro ⟨t, ht⟩
    refine ⟨isWord_of_parse ht, ?_⟩
    cases t with
    | constant name =>
      obtain rfl := text_of_parse ht
      exact .inr (.inr (parse_constant_iff.mp ht).2)
    | var cls digits qualifier =>
      cases qualifier with
      | none => exact .inl (exists_parse_variable_iff.mp ⟨cls, digits, ht⟩).2
      | some c => exact .inr (.inl (exists_parse_qualified_iff.mp ⟨cls, digits, c, ht⟩).2)
  · rintro ⟨hword, h | h | h⟩
    · obtain ⟨cls, digits, ht⟩ := exists_parse_variable_iff.mpr ⟨hword, h⟩
      exact ⟨_, ht⟩
    · obtain ⟨cls, digits, c, ht⟩ := exists_parse_qualified_iff.mpr ⟨hword, h⟩
      exact ⟨_, ht⟩
    · exact ⟨_, parse_constant_iff.mpr ⟨hword, h⟩⟩

theorem eq_constant_iff_of_parse {t : Token} (h : parse s = .ok t) :
    t = .constant s ↔ SpellsConstant s := by
  constructor
  · rintro rfl
    exact (parse_constant_iff.mp h).2
  · intro hs
    have hread := parse_constant_iff.mpr ⟨isWord_of_parse h, hs⟩
    exact Except.ok.inj (h.symm.trans hread)

theorem qualifier?_eq_none_iff_of_parse {cls : VariableClass} {digits : String}
    {qualifier : Option Condition} (h : parse s = .ok (.var cls digits qualifier)) :
    qualifier = none ↔ SpellsVariable s := by
  cases qualifier with
  | none => exact iff_of_true rfl (exists_parse_variable_iff.mp ⟨cls, digits, h⟩).2
  | some c =>
    have hs := (exists_parse_qualified_iff.mp ⟨cls, digits, c, h⟩).2
    exact iff_of_false nofun (not_spellsVariable_of_spellsQualified hs)

end spelling

/-- The grammar of tokens. The texts that are read as tokens are words of three kinds, and the
kind of the word is the kind of the token: a variable, a variable with a qualifier, or a constant.
The token has the word as its text, and a variable shows its class and its name in it. The fault
of any other text is about this text as a token. -/
theorem parse_follows_grammar (s : String) :
    ((∃ t, parse s = .ok t) ↔
      s ≠ "" ∧ (∀ c ∈ s.toList, Text.isBlank c = false) ∧
        (SpellsVariable s ∨ SpellsQualified s ∨ SpellsConstant s)) ∧
    (∀ t, parse s = .ok t →
      t.text = s ∧ (t = .constant s ↔ SpellsConstant s) ∧
        (¬ SpellsConstant s → ∃ cls, t.class? = some cls ∧ s.toList.head? = some cls.letter ∧
          SpellsVariable t.name ∧ (t.qualifier? = none ↔ SpellsVariable s) ∧
            s = t.name ++ t.qualifier?.elim "" fun c => ":" ++ c.text)) ∧
    ∀ fault, parse s = .error fault → ∃ flaw, fault = .invalidToken s flaw := by
  refine ⟨?_, fun t ht => ⟨text_of_parse ht, eq_constant_iff_of_parse ht, fun hs => ?_⟩,
    fun fault hfault => exists_flaw_of_parse hfault⟩
  · rw [exists_parse_iff, Text.isWord_iff, and_assoc, ne_eq, ne_eq, String.toList_eq_nil_iff]
  · cases t with
    | constant name =>
      obtain rfl := text_of_parse ht
      exact absurd ((eq_constant_iff_of_parse ht).mp rfl) hs
    | var cls digits qualifier =>
      obtain ⟨⟨hne, hdigits, -⟩, rfl⟩ := parse_eq_ok_iff.mp ht
      refine ⟨cls, rfl, ?_, spellsVariable_name hne hdigits qualifier,
        qualifier?_eq_none_iff_of_parse ht, ?_⟩
      · rw [toList_text_var]
        rfl
      · cases qualifier with
        | none => simp [text, name, qualifier?]
        | some c => simp [text, name, qualifier?, String.append_assoc]

/-- An ingredient that is a vegetable and not frozen. -/
def freshVegetable : Token :=
  .var .ingredient "93" (some (.all [.tag "Vegetable", .not (.tag "Frozen")]))

theorem parse_follows_grammar_vegetable :
    (parse "i93:Vegetable&!Frozen" = .ok freshVegetable ∧
      ¬ SpellsConstant "i93:Vegetable&!Frozen" ∧
      (∃ cls, freshVegetable.class? = some cls ∧
        "i93:Vegetable&!Frozen".toList.head? = some cls.letter) ∧
      SpellsVariable freshVegetable.name ∧ SpellsQualified "i93:Vegetable&!Frozen") ∧
    ∃ fault, parse "i93:Vegetable&!" = .error fault ∧
      ∃ flaw, fault = .invalidToken "i93:Vegetable&!" flaw := by
  obtain ⟨hread, htoken, -⟩ := parse_follows_grammar "i93:Vegetable&!Frozen"
  have hparse : parse "i93:Vegetable&!Frozen" = .ok freshVegetable := by decide +kernel
  have hcolon : ¬ SpellsConstant "i93:Vegetable&!Frozen" := fun h => h.2.2 (by decide)
  obtain ⟨-, -, hvariable⟩ := htoken _ hparse
  obtain ⟨cls, hcls, hletter, hname, hqualified, -⟩ := hvariable hcolon
  refine ⟨⟨hparse, hcolon, ⟨cls, hcls, hletter⟩, hname, ?_⟩, ?_⟩
  · obtain ⟨-, -, hspells⟩ := hread.mp ⟨_, hparse⟩
    rcases hspells with h | h | h
    · exact absurd (hqualified.mpr h) nofun
    · exact h
    · exact absurd h hcolon
  · have hbad : parse "i93:Vegetable&!" =
        .error (.invalidToken "i93:Vegetable&!" (.badQualifier .endOfText)) := by decide +kernel
    exact ⟨_, hbad, (parse_follows_grammar "i93:Vegetable&!").2.2 _ hbad⟩

end Simmer.Token
