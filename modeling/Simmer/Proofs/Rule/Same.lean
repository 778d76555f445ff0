import Simmer.RuleSet.Basic
import Simmer.Proofs.Printing.Groups
import Simmer.Proofs.Text.Cut

/-!
Rules that are the same up to the order of their collectors. They are printed with the same
words, so every character but those between the words stands in both prints or in neither.
-/
namespace Simmer

/-- In lists of one length that agree place by place, every member has its partner. -/
theorem exists_mem_of_all_zip {α β : Type} {r : α → β → Bool} {xs : List α} {ys : List β}
    (hlength : xs.length = ys.length) (h : ((xs.zip ys).all fun (x, y) => r x y) = true) {x : α}
    (hx : x ∈ xs) : ∃ y ∈ ys, r x y = true := by
  obtain ⟨i, hi, rfl⟩ := List.mem_iff_getElem.mp hx
  have hi' : i < ys.length := hlength ▸ hi
  have hpair : (xs[i], ys[i]) ∈ xs.zip ys :=
    List.mem_iff_getElem.mpr ⟨i, by rw [List.length_zip]; omega, List.getElem_zip⟩
  exact ⟨ys[i], List.getElem_mem hi', List.all_eq_true.mp h _ hpair⟩

theorem all_zip_self {α : Type} {r : α → α → Bool} (h : ∀ x, r x x = true) (xs : List α) :
    ((xs.zip xs).all fun (x, y) => r x y) = true := by
  induction xs with
  | nil => rfl
  | cons x xs ih =>
    rw [List.zip_cons_cons, List.all_cons, ih, Bool.and_true]
    exact h x

theorem Text.mem_unwords_of_mem {ws : List String} {word : String} (hword : word ∈ ws) {c : Char}
    (hc : c ∈ word.toList) : c ∈ (unwords ws).toList := by
  rw [toList_unwords]
  exact (infix_intercalate [' '] (List.mem_map_of_mem hword)).mem hc

namespace Groups

variable {texts : List String} {c : Char}

theorem mem_write (h : c ∈ (write texts).toList) :
    c ∈ [' ', '(', ')', '+'] ∨ ∃ text ∈ texts, c ∈ text.toList := by
  have hjoin : [' ', '+', ' '] ⊆ [' ', '(', ')', '+'] := by simp
  rw [toList_write, List.map_map] at h
  rcases Text.mem_of_mem_intercalate h with h | ⟨w, hw, h⟩
  · exact .inl (hjoin h)
  · obtain ⟨text, htext, rfl⟩ := List.mem_map.mp hw
    rcases mem_wrap.mp h with rfl | h | rfl
    · exact .inl (by simp)
    · exact .inr ⟨text, htext, h⟩
    · exact .inl (by simp)

theorem mem_write_of_mem {text : String} (htext : text ∈ texts) (hc : c ∈ text.toList) :
    c ∈ (write texts).toList := by
  have helement : wrap text.toList ∈ (texts.map String.toList).map wrap :=
    List.mem_map_of_mem (List.mem_map_of_mem htext)
  rw [toList_write]
  exact (Text.infix_intercalate _ helement).mem (mem_wrap.mpr (.inr (.inl hc)))

end Groups

namespace Clause

theorem same_refl (c : Clause) : c.same c = true := by
  simp [same]

theorem words_subset_of_same {a b : Clause} (h : a.same b = true) : a.words ⊆ b.words := by
  simp only [same, Bool.and_eq_true, decide_eq_true_eq, List.all_eq_true,
    List.contains_iff_mem] at h
  obtain ⟨⟨⟨hstrict, hbody⟩, -⟩, hcollectors⟩ := h
  have hmarker : a.markerWords = b.markerWords := by rw [markerWords, markerWords, hstrict]
  intro word hword
  rw [words, hmarker, hbody, List.append_assoc, List.mem_append] at hword
  rw [words, List.append_assoc, List.mem_append]
  exact hword.imp_left fun hheader => List.map_subset _ hcollectors hheader

end Clause

namespace Pattern

theorem same_refl (p : Pattern) : p.same p = true := by
  induction p with
  | plain c => exact c.same_refl
  | «unless» c veto ih => rw [same, c.same_refl, ih, Bool.and_self]

theorem words_subset_of_same {p q : Pattern} (h : p.same q = true) : p.words ⊆ q.words := by
  induction p generalizing q with
  | plain a =>
    cases q with
    | plain b => exact Clause.words_subset_of_same h
    | «unless» b w => cases h
  | «unless» a v ih =>
    cases q with
    | plain b => cases h
    | «unless» b w =>
      rw [same, Bool.and_eq_true] at h
      intro word hword
      simp only [words, List.mem_append, List.mem_cons] at hword ⊢
      exact hword.imp (fun hbody => Clause.words_subset_of_same h.1 hbody)
        (Or.imp_right fun hveto => ih h.2 hveto)

theorem mem_text_of_same {p q : Pattern} (h : p.same q = true) {c : Char}
    (hc : c ∈ p.text.toList) : c = ' ' ∨ c ∈ q.text.toList := by
  rcases Text.mem_unwords hc with hspace | ⟨word, hword, hc⟩
  · exact .inl hspace
  · exact .inr (Text.mem_unwords_of_mem (words_subset_of_same h hword) hc)

end Pattern

namespace MixturePattern

theorem same_refl (p : MixturePattern) : p.same p = true := by
  rw [same, all_zip_self Pattern.same_refl, Bool.and_true]
  exact beq_self_eq_true p.size

theorem mem_text_of_same {p q : MixturePattern} (h : p.same q = true) {c : Char}
    (hc : c ∈ p.text.toList) : c ∈ [' ', '(', ')', '+'] ∨ c ∈ q.text.toList := by
  rw [same, Bool.and_eq_true, beq_iff_eq] at h
  rcases Groups.mem_write hc with hjoin | ⟨text, htext, hc⟩
  · exact .inl hjoin
  · obtain ⟨element, helement, rfl⟩ := List.mem_map.mp htext
    obtain ⟨partner, hpartner, hsame⟩ := exists_mem_of_all_zip h.1 h.2 helement
    rcases Pattern.mem_text_of_same hsame hc with rfl | hc
    · exact .inl (by simp)
    · exact .inr (Groups.mem_write_of_mem (List.mem_map_of_mem hpartner) hc)

end MixturePattern

namespace Rule

theorem same_refl (r : Rule) : r.same r = true := by
  cases r with
  | component r => simp [same, ComponentRule.same, Pattern.same_refl]
  | mixture r => simp [same, MixtureRule.same, MixturePattern.same_refl]

/-- A character of the print of a rule, if it is not put in between the words, is in the print
of every rule that is the same. -/
theorem mem_text_of_same {a b : Rule} (h : a.same b = true) {c : Char}
    (hword : c ∉ [' ', '(', ')', '+']) (hc : c ∈ a.text.toList) : c ∈ b.text.toList := by
  cases a with
  | component a =>
    cases b with
    | mixture b => cases h
    | component b =>
      simp only [same, ComponentRule.same, Bool.and_eq_true, decide_eq_true_eq] at h
      obtain ⟨hlhs, hrhs⟩ := h
      simp only [text, ComponentRule.text, String.toList_append, List.mem_append, hrhs] at hc ⊢
      refine hc.imp_left (Or.imp_left fun hc => ?_)
      refine (Pattern.mem_text_of_same hlhs hc).resolve_left ?_
      rintro rfl
      exact hword (by simp)
  | mixture a =>
    cases b with
    | component b => cases h
    | mixture b =>
      simp only [same, MixtureRule.same, Bool.and_eq_true, decide_eq_true_eq] at h
      obtain ⟨hlhs, hrhs⟩ := h
      simp only [text, MixtureRule.text, String.toList_append, List.mem_append, hrhs] at hc ⊢
      refine hc.imp_left (Or.imp_left fun hc => ?_)
      exact (MixturePattern.mem_text_of_same hlhs hc).resolve_left hword

end Rule

theorem RuleSet.same_refl (s : RuleSet) : s.same s = true := by
  simp [same, all_zip_self Rule.same_refl]

end Simmer
