import Simmer.Text.Blank
import Mathlib.Data.List.Infix

/-!
Words of a text. The words are what a text has between its blanks, so words joined by single
spaces are read back as the same words, and a text joined anew from its words keeps its ink:
all characters that are not blank, in their order. A trimmed text begins and ends with ink.
-/
namespace Simmer.Text

/-- The characters that are not blank. -/
def ink (cs : List Char) : List Char :=
  cs.filter fun c => !isBlank c

variable {c : Char} {cs ds v w : List Char} {ws : List (List Char)}

theorem ink_cons_blank (h : isBlank c = true) (cs : List Char) : ink (c :: cs) = ink cs := by
  simp [ink, h]

theorem ink_cons_ink (h : isBlank c = false) (cs : List Char) : ink (c :: cs) = c :: ink cs := by
  simp [ink, h]

theorem isWord_iff : isWord cs = true ↔ cs ≠ [] ∧ ∀ c ∈ cs, isBlank c = false := by
  simp [isWord]

theorem isBlank_space : isBlank ' ' = true := rfl

theorem isBlank_of_isDigit {c : Char} (h : c.isDigit = true) : isBlank c = false := by
  simp only [Char.isDigit, Bool.and_eq_true, decide_eq_true_eq, ge_iff_le, UInt32.le_iff_toNat_le]
    at h
  have hlow : 48 ≤ c.toNat := h.1
  have hhigh : c.toNat ≤ 57 := h.2
  simp only [isBlank, Bool.or_eq_false_iff, Bool.and_eq_false_iff, decide_eq_false_iff_not,
    beq_eq_false_iff_ne]
  omega

section words

theorem eq_or_mem_of_mem_consWord (h : v ∈ consWord w ws) : w ≠ [] ∧ v = w ∨ v ∈ ws := by
  unfold consWord at h
  split at h
  · exact .inr h
  · rename_i hne
    rcases List.mem_cons.mp h with rfl | h
    · exact .inl ⟨by simpa using hne, rfl⟩
    · exact .inr h

theorem inkThenWords_append (h : ∀ c ∈ w, isBlank c = false) (cs : List Char) :
    inkThenWords (w ++ cs) = (w ++ (inkThenWords cs).1, (inkThenWords cs).2) := by
  induction w with
  | nil => rfl
  | cons c w ih =>
    obtain ⟨hc, hw⟩ := List.forall_mem_cons.mp h
    rw [List.cons_append, inkThenWords_cons_ink hc, ih hw]
    rfl

theorem wordsOf_of_isWord (h : isWord w = true) : wordsOf w = [w] := by
  obtain ⟨hne, hink⟩ := isWord_iff.mp h
  have hall := inkThenWords_append hink []
  rw [List.append_nil, inkThenWords_nil, List.append_nil] at hall
  rw [wordsOf, hall]
  simp [consWord, hne]

/-- A blank ends the word in front of it. -/
theorem wordsOf_append_blank (h : isWord w = true) (hc : isBlank c = true) (cs : List Char) :
    wordsOf (w ++ c :: cs) = w :: wordsOf cs := by
  obtain ⟨hne, hink⟩ := isWord_iff.mp h
  rw [wordsOf, inkThenWords_append hink, inkThenWords_cons_blank hc]
  simp [consWord, hne]

/-- Words joined by single spaces are read back. -/
theorem wordsOf_intercalate (h : ∀ w ∈ ws, isWord w = true) :
    wordsOf ([' '].intercalate ws) = ws := by
  induction ws with
  | nil => rfl
  | cons w ws ih =>
    obtain ⟨hw, hws⟩ := List.forall_mem_cons.mp h
    cases ws with
    | nil => rw [List.intercalate_singleton, wordsOf_of_isWord hw]
    | cons v ws =>
      rw [List.intercalate_cons_cons, List.append_assoc, List.singleton_append,
        wordsOf_append_blank hw isBlank_space, ih hws]

/-- The first ink of a text has no blank in it, and its words are words. -/
theorem inkThenWords_spec (cs : List Char) :
    (∀ c ∈ (inkThenWords cs).1, isBlank c = false) ∧
      ∀ w ∈ (inkThenWords cs).2, isWord w = true := by
  induction cs with
  | nil => simp [inkThenWords_nil]
  | cons c cs ih =>
    obtain ⟨hfirst, hwords⟩ := ih
    by_cases hc : isBlank c = true
    · rw [inkThenWords_cons_blank hc]
      refine ⟨by simp, fun w hw => ?_⟩
      rcases eq_or_mem_of_mem_consWord hw with ⟨hne, rfl⟩ | hw
      · exact isWord_iff.mpr ⟨hne, hfirst⟩
      · exact hwords w hw
    · rw [Bool.not_eq_true] at hc
      rw [inkThenWords_cons_ink hc]
      exact ⟨List.forall_mem_cons.mpr ⟨hc, hfirst⟩, hwords⟩

theorem isWord_of_mem_wordsOf (h : w ∈ wordsOf cs) : isWord w = true := by
  have hspec := (inkThenWords_spec (' ' :: cs)).2
  rw [inkThenWords_cons_blank isBlank_space] at hspec
  exact hspec w h

theorem flatten_consWord (w : List Char) (ws : List (List Char)) :
    (consWord w ws).flatten = w ++ ws.flatten := by
  unfold consWord
  split
  · rename_i hw
    simp [List.isEmpty_iff.mp hw]
  · rfl

/-- The words hold all the ink of a text. -/
theorem flatten_wordsOf (cs : List Char) : (wordsOf cs).flatten = ink cs := by
  induction cs with
  | nil => rfl
  | cons c cs ih =>
    by_cases hc : isBlank c = true
    · rw [wordsOf_cons_blank hc, ih, ink_cons_blank hc]
    · rw [Bool.not_eq_true] at hc
      rw [ink_cons_ink hc, ← ih, wordsOf, inkThenWords_cons_ink hc, flatten_consWord, wordsOf,
        flatten_consWord]
      rfl

/-- A word stands in one piece in the text. -/
theorem infix_of_mem_wordsOf (h : w ∈ wordsOf cs) : w <:+: cs := by
  have hboth : (inkThenWords cs).1 <+: cs ∧ ∀ w ∈ (inkThenWords cs).2, w <:+: cs := by
    clear h
    induction cs with
    | nil => simp [inkThenWords_nil]
    | cons c cs ih =>
      obtain ⟨hfirst, hwords⟩ := ih
      by_cases hc : isBlank c = true
      · rw [inkThenWords_cons_blank hc]
        refine ⟨by simp, fun w hw => List.infix_cons ?_⟩
        rcases eq_or_mem_of_mem_consWord hw with ⟨-, rfl⟩ | hw
        · exact hfirst.isInfix
        · exact hwords w hw
      · rw [Bool.not_eq_true] at hc
        rw [inkThenWords_cons_ink hc]
        exact ⟨List.prefix_cons_inj c |>.mpr hfirst, fun w hw => List.infix_cons (hwords w hw)⟩
  rcases eq_or_mem_of_mem_consWord h with ⟨-, rfl⟩ | h
  · exact hboth.1.isInfix
  · exact hboth.2 w h

end words

section trim

theorem trimEnd_cons_of_ne (h : trimEnd cs ≠ []) : trimEnd (c :: cs) = c :: trimEnd cs := by
  rw [trimEnd]
  split
  · rename_i hnil
    exact absurd hnil h
  · rename_i d ds hds
    rw [hds]

theorem trimEnd_cons_of_ink (h : isBlank c = false) : trimEnd (c :: cs) = c :: trimEnd cs := by
  rw [trimEnd]
  split
  · rename_i hnil
    simp [h, hnil]
  · rename_i d ds hds
    rw [hds]

theorem trimEnd_append (h : trimEnd ds ≠ []) : trimEnd (cs ++ ds) = cs ++ trimEnd ds := by
  induction cs with
  | nil => rfl
  | cons c cs ih =>
    rw [List.cons_append, trimEnd_cons_of_ne (by rw [ih]; simp [h]), ih, List.cons_append]

theorem trimEnd_of_ink (h : ∀ c ∈ cs, isBlank c = false) : trimEnd cs = cs := by
  induction cs with
  | nil => rfl
  | cons c cs ih =>
    obtain ⟨hc, hcs⟩ := List.forall_mem_cons.mp h
    rw [trimEnd_cons_of_ink hc, ih hcs]

theorem trimEnd_concat_blank (h : isBlank c = true) : trimEnd (cs ++ [c]) = trimEnd cs := by
  induction cs with
  | nil => simp [trimEnd, h]
  | cons d cs ih => rw [List.cons_append, trimEnd, ih, trimEnd]

theorem trimEnd_trimEnd (cs : List Char) : trimEnd (trimEnd cs) = trimEnd cs := by
  induction cs with
  | nil => rfl
  | cons c cs ih =>
    by_cases hne : trimEnd cs = []
    · rw [trimEnd, hne]
      by_cases hc : isBlank c = true
      · simp [hc, trimEnd]
      · rw [Bool.not_eq_true] at hc
        simp [hc, trimEnd]
    · rw [trimEnd_cons_of_ne hne, trimEnd_cons_of_ne (by rw [ih]; exact hne), ih]

theorem inkThenWords_trimEnd (cs : List Char) : inkThenWords (trimEnd cs) = inkThenWords cs := by
  induction cs with
  | nil => rfl
  | cons c cs ih =>
    by_cases hc : isBlank c = true
    · by_cases hne : trimEnd cs = []
      · rw [trimEnd, hne, inkThenWords_cons_blank hc, wordsOf, ← ih, hne]
        simp [hc, inkThenWords_nil, consWord]
      · rw [trimEnd_cons_of_ne hne, inkThenWords_cons_blank hc, inkThenWords_cons_blank hc,
          wordsOf, wordsOf, ih]
    · rw [Bool.not_eq_true] at hc
      rw [trimEnd_cons_of_ink hc, inkThenWords_cons_ink hc, inkThenWords_cons_ink hc, ih]

theorem wordsOf_trimStart (cs : List Char) : wordsOf (trimStart cs) = wordsOf cs := by
  induction cs with
  | nil => rfl
  | cons c cs ih =>
    by_cases hc : isBlank c = true
    · rw [wordsOf_cons_blank hc, ← ih, trimStart, List.dropWhile_cons_of_pos hc]
      rfl
    · rw [trimStart, List.dropWhile_cons_of_neg hc]

/-- Trimming takes no word away. -/
theorem wordsOf_trim (cs : List Char) : wordsOf (trim cs) = wordsOf cs := by
  rw [trim, wordsOf, inkThenWords_trimEnd]
  exact wordsOf_trimStart cs

theorem ink_trim (cs : List Char) : ink (trim cs) = ink cs := by
  rw [← flatten_wordsOf, wordsOf_trim, flatten_wordsOf]

theorem trim_cons_blank (h : isBlank c = true) (cs : List Char) : trim (c :: cs) = trim cs := by
  rw [trim, trimStart, List.dropWhile_cons_of_pos h]
  rfl

theorem trim_cons_ink (h : isBlank c = false) (cs : List Char) :
    trim (c :: cs) = c :: trimEnd cs := by
  rw [trim, trimStart, List.dropWhile_cons_of_neg (by simp [h]), trimEnd_cons_of_ink h]

theorem trim_concat_blank (h : isBlank c = true) (cs : List Char) :
    trim (cs ++ [c]) = trim cs := by
  induction cs with
  | nil => rw [List.nil_append, trim_cons_blank h]
  | cons d cs ih =>
    by_cases hd : isBlank d = true
    · rw [List.cons_append, trim_cons_blank hd, trim_cons_blank hd, ih]
    · rw [Bool.not_eq_true] at hd
      rw [List.cons_append, trim_cons_ink hd, trim_cons_ink hd, trimEnd_concat_blank h]

theorem trim_trim (cs : List Char) : trim (trim cs) = trim cs := by
  induction cs with
  | nil => rfl
  | cons c cs ih =>
    by_cases hc : isBlank c = true
    · rw [trim_cons_blank hc, ih]
    · rw [Bool.not_eq_true] at hc
      rw [trim_cons_ink hc, trim_cons_ink hc, trimEnd_trimEnd]

theorem trimEnd_isPrefix (cs : List Char) : trimEnd cs <+: cs := by
  induction cs with
  | nil => exact List.nil_prefix
  | cons c cs ih =>
    by_cases hne : trimEnd cs = []
    · rw [trimEnd, hne]
      by_cases hc : isBlank c = true
      · simp [hc]
      · simp [hc]
    · rw [trimEnd_cons_of_ne hne]
      exact List.cons_prefix_cons.mpr ⟨rfl, ih⟩

theorem trimEnd_eq_nil_iff : trimEnd cs = [] ↔ ∀ c ∈ cs, isBlank c = true := by
  induction cs with
  | nil => simp [trimEnd]
  | cons c cs ih =>
    by_cases hc : isBlank c = true
    · rw [List.forall_mem_cons, and_iff_right hc, ← ih, trimEnd]
      cases trimEnd cs <;> simp [hc]
    · rw [Bool.not_eq_true] at hc
      simp [trimEnd_cons_of_ink hc, hc]

/-- What trimming the end leaves ends in ink, with blanks behind it in the text. -/
theorem trimEnd_eq_concat_iff (hc : isBlank c = false) :
    trimEnd cs = ds ++ [c] ↔ ∃ blanks, cs = ds ++ c :: blanks ∧ ∀ b ∈ blanks, isBlank b = true := by
  have hblanks {blanks : List Char} :
      trimEnd (ds ++ c :: blanks) = ds ++ c :: trimEnd blanks := by
    rw [trimEnd_append (by simp [trimEnd_cons_of_ink hc]), trimEnd_cons_of_ink hc]
  constructor
  · intro h
    obtain ⟨blanks, rfl⟩ : ds ++ [c] <+: cs := h ▸ trimEnd_isPrefix cs
    rw [List.append_assoc, List.singleton_append, hblanks, List.append_cancel_left_eq,
      List.cons_inj_right, trimEnd_eq_nil_iff] at h
    exact ⟨blanks, by simp, h⟩
  · rintro ⟨blanks, rfl, h⟩
    rw [hblanks, trimEnd_eq_nil_iff.mpr h]

theorem trim_isInfix (cs : List Char) : trim cs <:+: cs :=
  (trimEnd_isPrefix _).isInfix.trans (List.dropWhile_suffix _).isInfix

/-- The first character that trimming leaves is the first ink. -/
theorem head?_trim (cs : List Char) : (trim cs).head? = (ink cs).head? := by
  induction cs with
  | nil => rfl
  | cons c cs ih =>
    by_cases hc : isBlank c = true
    · rw [trim_cons_blank hc, ink_cons_blank hc, ih]
    · rw [Bool.not_eq_true] at hc
      rw [trim_cons_ink hc, ink_cons_ink hc, List.head?_cons, List.head?_cons]

end trim

/-- A text that begins and ends with ink. -/
def Inked (cs : List Char) : Prop :=
  cs ≠ [] ∧ trim cs = cs

namespace Inked

theorem cons_iff : Inked (c :: cs) ↔ isBlank c = false ∧ trimEnd cs = cs := by
  constructor
  · rintro ⟨-, htrim⟩
    have hc : isBlank c = false := by
      by_contra hblank
      rw [Bool.not_eq_false] at hblank
      rw [trim_cons_blank hblank] at htrim
      have hlength := (trim_isInfix cs).length_le
      rw [htrim, List.length_cons] at hlength
      omega
    rw [trim_cons_ink hc] at htrim
    exact ⟨hc, List.tail_eq_of_cons_eq htrim⟩
  · rintro ⟨hc, hend⟩
    exact ⟨List.cons_ne_nil _ _, by rw [trim_cons_ink hc, hend]⟩

theorem trimEnd_eq (h : Inked cs) : trimEnd cs = cs := by
  cases cs with
  | nil => rfl
  | cons c cs =>
    obtain ⟨hc, hend⟩ := cons_iff.mp h
    rw [trimEnd_cons_of_ink hc, hend]

theorem of_isWord (h : isWord w = true) : Inked w := by
  obtain ⟨hne, hink⟩ := isWord_iff.mp h
  cases w with
  | nil => exact absurd rfl hne
  | cons c w =>
    obtain ⟨hc, hw⟩ := List.forall_mem_cons.mp hink
    exact cons_iff.mpr ⟨hc, trimEnd_of_ink hw⟩

/-- What stands between two texts does not matter to the ends of the whole. -/
theorem append (hcs : Inked cs) (between : List Char) (hds : Inked ds) :
    Inked (cs ++ between ++ ds) := by
  cases cs with
  | nil => exact absurd rfl hcs.1
  | cons c cs =>
    have hend : trimEnd ds ≠ [] := by
      rw [hds.trimEnd_eq]
      exact hds.1
    rw [List.append_assoc, List.cons_append, cons_iff, ← List.append_assoc,
      trimEnd_append hend, hds.trimEnd_eq]
    exact ⟨(cons_iff.mp hcs).1, rfl⟩

theorem intercalate (sep : List Char) (h : ∀ w ∈ ws, Inked w) (hne : ws ≠ []) :
    Inked (sep.intercalate ws) := by
  induction ws with
  | nil => exact absurd rfl hne
  | cons w ws ih =>
    obtain ⟨hw, hws⟩ := List.forall_mem_cons.mp h
    cases ws with
    | nil => rwa [List.intercalate_singleton]
    | cons v ws =>
      rw [List.intercalate_cons_cons]
      exact hw.append sep (ih hws (List.cons_ne_nil _ _))

end Inked

theorem prefix_intercalate (sep w : List Char) (ws : List (List Char)) :
    w <+: sep.intercalate (w :: ws) := by
  cases ws with
  | nil => rw [List.intercalate_singleton]
  | cons v ws =>
    rw [List.intercalate_cons_cons, List.append_assoc]
    exact List.prefix_append _ _

theorem mem_of_mem_intercalate {sep : List Char} (h : c ∈ sep.intercalate ws) :
    c ∈ sep ∨ ∃ w ∈ ws, c ∈ w := by
  induction ws with
  | nil => simp at h
  | cons w ws ih =>
    cases ws with
    | nil => exact .inr ⟨w, List.mem_cons_self, by rwa [List.intercalate_singleton] at h⟩
    | cons v ws =>
      rw [List.intercalate_cons_cons, List.mem_append, List.mem_append] at h
      rcases h with (h | h) | h
      · exact .inr ⟨w, List.mem_cons_self, h⟩
      · exact .inl h
      · rcases ih h with h | ⟨u, hu, h⟩
        · exact .inl h
        · exact .inr ⟨u, List.mem_cons_of_mem _ hu, h⟩

section strings

variable {s t : String} {ss : List String}

theorem toList_unwords (ss : List String) :
    (unwords ss).toList = [' '].intercalate (ss.map String.toList) := by
  rw [unwords, String.toList_intercalate]
  rfl

theorem mem_unwords (h : c ∈ (unwords ss).toList) : c = ' ' ∨ ∃ s ∈ ss, c ∈ s.toList := by
  rw [toList_unwords] at h
  rcases mem_of_mem_intercalate h with h | ⟨w, hw, h⟩
  · exact .inl (by simpa using h)
  · obtain ⟨s, hs, rfl⟩ := List.mem_map.mp hw
    exact .inr ⟨s, hs, h⟩

theorem wordsOf_toList (t : String) : wordsOf t.toList = (words t).map String.toList := by
  simp [words, Function.comp_def]

theorem isWord_of_mem_words (h : s ∈ words t) : isWord s.toList = true := by
  obtain ⟨w, hw, rfl⟩ := List.mem_map.mp h
  rw [String.toList_ofList]
  exact isWord_of_mem_wordsOf hw

theorem infix_of_mem_words (h : s ∈ words t) : s.toList <:+: t.toList := by
  obtain ⟨w, hw, rfl⟩ := List.mem_map.mp h
  rw [String.toList_ofList]
  exact infix_of_mem_wordsOf hw

theorem words_unwords (h : ∀ s ∈ ss, isWord s.toList = true) : words (unwords ss) = ss := by
  have hall : ∀ w ∈ ss.map String.toList, isWord w = true := by
    simpa using h
  rw [words, toList_unwords, wordsOf_intercalate hall, List.map_map]
  simp [Function.comp_def]

theorem words_of_trim (h : s.toList = trim t.toList) : words s = words t := by
  rw [words, words, h, wordsOf_trim]

theorem words_unwords_words (t : String) : words (unwords (words t)) = words t :=
  words_unwords fun _ h => isWord_of_mem_words h

theorem ink_unwords_words (t : String) : ink (unwords (words t)).toList = ink t.toList := by
  rw [← flatten_wordsOf, ← flatten_wordsOf, wordsOf_toList, wordsOf_toList, words_unwords_words]

theorem inked_unwords (h : ∀ s ∈ ss, isWord s.toList = true) (hne : ss ≠ []) :
    Inked (unwords ss).toList := by
  rw [toList_unwords]
  apply Inked.intercalate
  · intro w hw
    obtain ⟨s, hs, rfl⟩ := List.mem_map.mp hw
    exact Inked.of_isWord (h s hs)
  · simpa using hne

end strings

end Simmer.Text
