import Simmer.Proofs.Grammar.Groups
import Simmer.Proofs.Printing.Template

/-!
Elements in print. Splitting cuts balanced pieces out of a text, in which every pair of
parentheses that closes was opened before. A balanced text in parentheses is read as one
element, so elements that are joined in print are the ones that splitting gives back.
-/
namespace Simmer.Groups

open Text (ink Inked trim)

variable {c : Char} {cs ds p e : List Char} {es : List (List Char)} {depth inner : Nat}

section openBehind

theorem openBehind_cons_blank (h : Text.isBlank c = true) (depth : Nat) (cs : List Char) :
    openBehind depth (c :: cs) = openBehind depth cs :=
  openBehind_other (ne_of_isBlank h).1 (ne_of_isBlank h).2.1

/-- Blanks open and close nothing. -/
theorem openBehind_ink (depth : Nat) (cs : List Char) :
    openBehind depth (ink cs) = openBehind depth cs := by
  induction cs generalizing depth with
  | nil => rfl
  | cons c cs ih =>
    by_cases hc : Text.isBlank c = true
    · rw [Text.ink_cons_blank hc, ih, openBehind_cons_blank hc]
    · rw [Bool.not_eq_true] at hc
      rw [Text.ink_cons_ink hc, openBehind, openBehind, ih, ih, ih]

theorem Balanced.of_ink (h : Balanced cs) (hink : ink ds = ink cs) : Balanced ds := by
  rw [Balanced, ← openBehind_ink, hink, openBehind_ink]
  exact h

theorem hasOuterJoin_ink (depth : Nat) (cs : List Char) :
    hasOuterJoin depth (ink cs) = hasOuterJoin depth cs := by
  induction cs generalizing depth with
  | nil => rfl
  | cons c cs ih =>
    by_cases hc : Text.isBlank c = true
    · obtain ⟨hopen, hclose, hplus⟩ := ne_of_isBlank hc
      rw [Text.ink_cons_blank hc, ih, hasOuterJoin, if_neg hopen, if_neg hclose,
        if_neg fun hjoin => hplus hjoin.1]
    · rw [Bool.not_eq_true] at hc
      rw [Text.ink_cons_ink hc, hasOuterJoin, hasOuterJoin, ih, ih, ih]

theorem hasOuterJoin_of_not_mem (h : '+' ∉ cs) (depth : Nat) : hasOuterJoin depth cs = false := by
  induction cs generalizing depth with
  | nil => rfl
  | cons c cs ih =>
    rw [List.mem_cons, not_or] at h
    have hjoin : ¬ (c = '+' ∧ depth = 0) := fun hc => h.1 hc.1.symm
    rw [hasOuterJoin, ih h.2, ih h.2, ih h.2, if_neg hjoin]
    simp

end openBehind

section split

variable {s text : String} {texts : List String}

/-- A balanced piece of the text, without the blanks around it. -/
def CutFrom (cs e : List Char) : Prop :=
  ∃ piece, piece <:+: cs ∧ Balanced piece ∧ trim piece = e

/-- The element of a segment is this segment, or what stands in the pair around it. -/
theorem Grammatical.cutFrom (h : Grammatical cs) (hp : p ∈ segments cs) :
    CutFrom cs (elementOf p) := by
  have hinfix := infix_of_mem_segments hp
  by_cases hopen : (trim p).head? = some '('
  · obtain ⟨inside, hinside, hmatched, -⟩ := (h.holds p hp).wrapped hopen
    have hwrap : inside <:+: trim p := hinside ▸ ⟨['('], [')'], rfl⟩
    exact ⟨inside, hwrap.trans ((Text.trim_isInfix p).trans hinfix),
      balanced_iff_matched.mpr hmatched, (elementOf_of_wrap hinside).symm⟩
  · exact ⟨p, hinfix, balanced_of_mem_segments (balanced_iff_matched.mpr h.matched) hp,
      (elementOf_of_bare hopen).symm⟩

/-- A text is split into balanced pieces of it. -/
theorem cutFrom_of_split (h : split s = .ok texts) (htext : text ∈ texts) :
    CutFrom s.toList text.toList := by
  obtain ⟨hgrammatical, rfl⟩ := split_eq_ok_iff.mp h
  obtain ⟨p, hp, rfl⟩ := List.mem_map.mp htext
  rw [String.toList_ofList]
  exact hgrammatical.cutFrom hp

theorem ne_nil_of_split (h : split s = .ok texts) : texts ≠ [] := by
  obtain ⟨-, rfl⟩ := split_eq_ok_iff.mp h
  simpa using segments_ne_nil s.toList

end split

section write

/-- A balanced text within a pair of parentheses is read to its end. -/
theorem scan_wrapped (h : openBehind depth cs = some inner) (read rest : List Char) :
    scan (.wrapped depth read) (cs ++ rest) = scan (.wrapped inner (cs.reverse ++ read)) rest := by
  induction cs generalizing depth read with
  | nil => rw [List.nil_append, Option.some.inj h, List.reverse_nil, List.nil_append]
  | cons c cs ih =>
    rw [openBehind] at h
    rw [List.cons_append, scan, List.reverse_cons, List.append_assoc, List.singleton_append]
    split at h
    · rw [if_pos ‹_›, ih h]
    · rw [if_neg ‹_›]
      split at h
      · rw [if_pos ‹_›]
        split at h
        · cases h
        · rw [if_neg ‹_›, ih h]
      · rw [if_neg ‹_›, ih h]

theorem mem_wrap : c ∈ wrap e ↔ c = '(' ∨ c ∈ e ∨ c = ')' := by
  simp [wrap]

theorem inked_wrap (e : List Char) : Inked (wrap e) := by
  have hopen : Inked ['('] := Inked.of_isWord rfl
  exact hopen.append e (Inked.of_isWord rfl : Inked [')'])

/-- A text that comes back from between parentheses as it is. -/
structure Wrappable (e : List Char) : Prop where
  inked : Inked e
  balanced : Balanced e

theorem scan_wrap (h : Wrappable e) (rest : List Char) :
    scan .awaiting (wrap e ++ rest) = (do
      let others ← scan .closed rest
      .ok (e :: others)) := by
  have helement : element (e.reverse ++ []) = e := by
    rw [element, List.append_nil, List.reverse_reverse, h.inked.2]
  rw [wrap, List.cons_append, List.append_assoc, scan, if_neg (by decide), if_pos rfl,
    scan_wrapped h.balanced, List.singleton_append, scan, if_neg (by decide), if_pos rfl,
    if_pos rfl, helement]

theorem scan_write (h : ∀ e ∈ es, Wrappable e) (hne : es ≠ []) :
    scan .awaiting ([' ', '+', ' '].intercalate (es.map wrap)) = .ok es := by
  induction es with
  | nil => exact absurd rfl hne
  | cons e es ih =>
    obtain ⟨he, hes⟩ := List.forall_mem_cons.mp h
    cases es with
    | nil =>
      rw [List.map_singleton, List.intercalate_singleton, ← List.append_nil (wrap e), scan_wrap he]
      rfl
    | cons d es =>
      have hjoin (cs : List Char) : scan .closed ([' ', '+', ' '] ++ cs) = scan .awaiting cs := rfl
      rw [List.map_cons, List.map_cons, List.intercalate_cons_cons, List.append_assoc,
        scan_wrap he, hjoin, ← List.map_cons, ih hes (List.cons_ne_nil _ _)]
      rfl

theorem toList_write (texts : List String) :
    (write texts).toList =
      [' ', '+', ' '].intercalate ((texts.map String.toList).map wrap) := by
  rw [write, String.toList_intercalate, List.map_map, List.map_map]
  congr 1
  apply List.map_congr_left
  intro text _
  simp [wrap]

/-- The print of elements begins with a parenthesis. -/
theorem head?_write (text : String) (texts : List String) :
    (write (text :: texts)).toList.head? = some '(' := by
  rw [toList_write]
  cases texts with
  | nil => simp [wrap]
  | cons other texts => simp [wrap]

/-- Texts in print are split apart again. -/
theorem split_write {texts : List String} (h : ∀ text ∈ texts, Wrappable text.toList)
    (hne : texts ≠ []) : split (write texts) = .ok texts := by
  have hall : ∀ e ∈ texts.map String.toList, Wrappable e := by simpa using h
  have hnonempty : (texts.map String.toList).any List.isEmpty = false := by
    rw [List.any_eq_false]
    intro e he
    simpa using (hall e he).inked.1
  rw [split, toList_write, scan_write hall (by simpa using hne)]
  simp [hnonempty, Function.comp_def]

end write

section reread

variable {α : Type} {parse : String → Except Fault α} {text : α → String} {s : String}
  {texts : List String} {xs : List α}

theorem wrappable_of_mapM (hspelled : Spelled parse text) (hsplit : split s = .ok texts)
    (hparse : texts.mapM parse = .ok xs) : ∀ x ∈ xs, Wrappable (text x).toList := by
  intro x hx
  obtain ⟨element, helement, hx⟩ := Outcome.exists_of_mem_mapM hparse hx
  obtain ⟨piece, -, hbalanced, htrim⟩ := cutFrom_of_split hsplit helement
  refine ⟨hspelled.inked hx, hbalanced.of_ink ?_⟩
  rw [hspelled.ink_eq hx, ← htrim, Text.ink_trim]

theorem ne_nil_of_mapM (hsplit : split s = .ok texts) (hparse : texts.mapM parse = .ok xs) :
    xs ≠ [] := by
  have hlength := (Outcome.mapM_eq_ok_iff.mp hparse).length_eq
  rintro rfl
  exact ne_nil_of_split hsplit (by simpa using hlength)

theorem split_write_of_mapM (hspelled : Spelled parse text) (hsplit : split s = .ok texts)
    (hparse : texts.mapM parse = .ok xs) :
    split (write (xs.map text)) = .ok (xs.map text) := by
  apply split_write
  · intro t ht
    obtain ⟨x, hx, rfl⟩ := List.mem_map.mp ht
    exact wrappable_of_mapM hspelled hsplit hparse x hx
  · simpa using ne_nil_of_mapM hsplit hparse

/-- What was read from elements is read again from their prints. -/
theorem mapM_map_text (hspelled : Spelled parse text) (hparse : texts.mapM parse = .ok xs) :
    (xs.map text).mapM parse = .ok xs := by
  refine Outcome.mapM_eq_ok_iff.mpr (List.forall₂_map_left_iff.mpr ?_)
  apply List.forall₂_same.mpr
  intro x hx
  obtain ⟨element, -, hx⟩ := Outcome.exists_of_mem_mapM hparse hx
  exact hspelled.parse_text hx

end reread

end Simmer.Groups
