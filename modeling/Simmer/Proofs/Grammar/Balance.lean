import Mathlib.Data.List.Infix

/-!
Balanced parentheses. They are balanced when no beginning of a text closes more of them than it
opens and the whole closes all of them. Counting the pairs that are open, as a reader does on its
way through the text, comes to the same.
-/
namespace Simmer.Groups

/-- How many pairs are open behind a text that begins inside `depth` of them; none when it
closes a pair that was not opened. -/
def openBehind : Nat → List Char → Option Nat
  | depth, [] => some depth
  | depth, c :: cs =>
    if c = '(' then openBehind (depth + 1) cs
    else if c = ')' then if depth = 0 then none else openBehind (depth - 1) cs
    else openBehind depth cs

def Balanced (cs : List Char) : Prop :=
  openBehind 0 cs = some 0

/-- No beginning of the text closes more than `depth` pairs that it did not open. -/
def Within (depth : Nat) (cs : List Char) : Prop :=
  ∀ front, front <+: cs → front.count ')' ≤ depth + front.count '('

/-- No beginning of the text closes more pairs than it opens, and the whole closes all. -/
structure Matched (cs : List Char) : Prop where
  opens_first : ∀ front, front <+: cs → front.count ')' ≤ front.count '('
  closes_all : cs.count ')' = cs.count '('

variable {c : Char} {cs : List Char} {depth inner : Nat}

theorem openBehind_open : openBehind depth ('(' :: cs) = openBehind (depth + 1) cs := rfl

theorem openBehind_close : openBehind (depth + 1) (')' :: cs) = openBehind depth cs := rfl

theorem openBehind_join : openBehind depth ('+' :: cs) = openBehind depth cs := rfl

theorem openBehind_other (hopen : c ≠ '(') (hclose : c ≠ ')') :
    openBehind depth (c :: cs) = openBehind depth cs := by
  rw [openBehind, if_neg hopen, if_neg hclose]

theorem within_cons_iff :
    Within depth (c :: cs) ↔
      ∀ front, front <+: cs → (c :: front).count ')' ≤ depth + (c :: front).count '(' := by
  constructor
  · intro h front hfront
    exact h _ (List.prefix_cons_iff.mpr (.inr ⟨front, rfl, hfront⟩))
  · intro h front hfront
    rcases List.prefix_cons_iff.mp hfront with rfl | ⟨rest, rfl, hrest⟩
    · exact Nat.zero_le _
    · exact h rest hrest

theorem within_open : Within depth ('(' :: cs) ↔ Within (depth + 1) cs := by
  rw [within_cons_iff]
  refine forall₂_congr fun front _ => ?_
  rw [List.count_cons_self, List.count_cons_of_ne (by decide)]
  omega

theorem within_close : Within depth (')' :: cs) ↔ depth ≠ 0 ∧ Within (depth - 1) cs := by
  have hcount (front : List Char) : (')' :: front).count ')' ≤ depth + (')' :: front).count '(' ↔
      front.count ')' + 1 ≤ depth + front.count '(' := by
    rw [List.count_cons_self, List.count_cons_of_ne (by decide)]
  rw [within_cons_iff]
  simp only [hcount]
  constructor
  · intro h
    have hdepth : 0 + 1 ≤ depth + 0 := h [] List.nil_prefix
    refine ⟨by omega, fun front hfront => ?_⟩
    have hle := h front hfront
    omega
  · rintro ⟨hdepth, h⟩ front hfront
    have hle := h front hfront
    omega

theorem within_other (hopen : c ≠ '(') (hclose : c ≠ ')') :
    Within depth (c :: cs) ↔ Within depth cs := by
  rw [within_cons_iff]
  refine forall₂_congr fun front _ => ?_
  rw [List.count_cons_of_ne hopen, List.count_cons_of_ne hclose]

/-- The pairs that are open behind a text are those that it opens and does not close. -/
theorem openBehind_eq_some_iff :
    openBehind depth cs = some inner ↔
      Within depth cs ∧ depth + cs.count '(' = inner + cs.count ')' := by
  -- a closing one at depth 0 ends the count, and it is the beginning that closes too much
  induction cs generalizing depth with
  | nil => simp [openBehind, Within]
  | cons c cs ih =>
    rw [openBehind]
    by_cases hopen : c = '('
    · subst hopen
      rw [if_pos rfl, ih, within_open, List.count_cons_self, List.count_cons_of_ne (by decide)]
      exact and_congr_right fun _ => by omega
    rw [if_neg hopen]
    by_cases hclose : c = ')'
    · subst hclose
      rw [if_pos rfl, within_close, List.count_cons_self, List.count_cons_of_ne (by decide)]
      by_cases hdepth : depth = 0
      · simp [hdepth]
      · rw [if_neg hdepth, ih, and_iff_right hdepth]
        exact and_congr_right fun _ => by omega
    · rw [if_neg hclose, ih, within_other hopen hclose, List.count_cons_of_ne hopen,
        List.count_cons_of_ne hclose]

theorem balanced_iff_matched : Balanced cs ↔ Matched cs := by
  rw [Balanced, openBehind_eq_some_iff, Within]
  simp only [Nat.zero_add]
  exact ⟨fun h => ⟨h.1, h.2.symm⟩, fun h => ⟨h.opens_first, h.closes_all.symm⟩⟩

instance (cs : List Char) : Decidable (Balanced cs) :=
  inferInstanceAs (Decidable (openBehind 0 cs = some 0))

instance (cs : List Char) : Decidable (Matched cs) :=
  decidable_of_iff (Balanced cs) balanced_iff_matched

end Simmer.Groups
