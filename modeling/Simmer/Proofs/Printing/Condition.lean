import Simmer.Condition.Reader
import Simmer.Proofs.Outcome
import Mathlib.Data.List.TakeWhile

/-!
Conditions in print. For each reader it is written down once what it reads and what it leaves
behind. The two make up the text that it was given, so a condition is printed as the very text
that it was read from.
-/
namespace Simmer.Condition

/-- The operands behind the first, each with the sign in front of it. -/
def charsBehind (sign : Char) (operands : List Condition) : List Char :=
  operands.flatMap fun operand => sign :: operand.chars

theorem charsBehind_cons (sign : Char) (operand : Condition) (operands : List Condition) :
    charsBehind sign (operand :: operands) =
      sign :: (operand.chars ++ charsBehind sign operands) := by
  rw [charsBehind, List.flatMap_cons, List.cons_append]
  rfl

theorem charsJoined_cons (sign : Char) (first : Condition) (others : List Condition) :
    charsJoined sign (first :: others) = first.chars ++ charsBehind sign others := by
  induction others generalizing first with
  | nil => simp [charsJoined, charsBehind]
  | cons other others ih =>
    rw [charsJoined, ih other]
    · rfl
    · exact List.cons_ne_nil _ _

theorem chars_join (connective : Connective) (first : Condition) (others : List Condition) :
    (connective.join (first :: others)).chars =
      first.chars ++ charsBehind connective.sign others := by
  cases connective with
  | both => exact charsJoined_cons '&' first others
  | either => exact charsJoined_cons '|' first others

theorem ofSign?_eq_some_iff {c : Char} {connective : Connective} :
    Connective.ofSign? c = some connective ↔ c = connective.sign := by
  constructor
  · intro h
    unfold Connective.ofSign? at h
    split at h
    · rename_i hc
      obtain rfl := Option.some.inj h
      exact hc
    · split at h
      · rename_i hc
        obtain rfl := Option.some.inj h
        exact hc
      · cases h
  · rintro rfl
    cases connective <;> rfl

/-- The text goes on, if it does, with a character that no tag holds. -/
def EndsTag (rest : List Char) : Prop :=
  ∀ c ∈ rest.head?, isSpecial c = true

/-- The characters of a tag: none of them special and none blank. -/
def IsTag (name : List Char) : Prop :=
  ∀ c ∈ name, isSpecial c = false ∧ Text.isBlank c = false

section readers

variable {calls : Nat} {cs rest : List Char} {c : Condition} {connective : Connective}
  {operands : List Condition}

theorem readTag_eq_ok_iff :
    readTag cs = .ok (c, rest) ↔
      ∃ name, c = .tag (String.ofList name) ∧ name ++ rest = cs ∧ IsTag name ∧ EndsTag rest := by
  unfold readTag
  dsimp only
  constructor
  · intro h
    split at h
    · cases h
    · rename_i hblank
      obtain ⟨rfl, rfl⟩ := Prod.mk.inj (Except.ok.inj h)
      refine ⟨_, rfl, List.takeWhile_append_dropWhile, fun d hd => ⟨?_, ?_⟩, fun d hd => ?_⟩
      · simpa using List.mem_takeWhile_imp hd
      · simpa using fun hd' => hblank (List.any_eq_true.mpr ⟨d, hd, hd'⟩)
      · have hstop := List.head?_dropWhile_not (fun c => !isSpecial c) cs
        rw [Option.mem_def.mp hd] at hstop
        simpa using hstop
  · rintro ⟨name, rfl, rfl, hname, hrest⟩
    have htag : ∀ d ∈ name, (!isSpecial d) = true := fun d hd => by simp [(hname d hd).1]
    have hstop : rest.takeWhile (!isSpecial ·) = [] ∧ rest.dropWhile (!isSpecial ·) = rest := by
      cases rest with
      | nil => exact ⟨rfl, rfl⟩
      | cons d rest =>
        have hspecial : isSpecial d = true := hrest d rfl
        simp [hspecial]
    have hink : name.any Text.isBlank = false := by
      simpa using fun d hd => (hname d hd).2
    rw [List.takeWhile_append_of_pos htag, List.dropWhile_append_of_pos htag, hstop.1, hstop.2,
      List.append_nil, hink, if_neg Bool.false_ne_true]

theorem readExpression_eq_ok_iff :
    readExpression (calls + 1) cs = .ok (c, rest) ↔
      ∃ first behind, readOperand calls cs = .ok (first, behind) ∧
        (behind.head?.bind Connective.ofSign? = none ∧ c = first ∧ rest = behind ∨
          ∃ connective others, behind.head?.bind Connective.ofSign? = some connective ∧
            readOthers calls connective behind = .ok (others, rest) ∧
            c = connective.join (first :: others)) := by
  rw [readExpression, Outcome.bind_eq_ok_iff]
  constructor
  · rintro ⟨⟨first, behind⟩, hfirst, h⟩
    refine ⟨first, behind, hfirst, ?_⟩
    dsimp only at h
    split at h
    · rename_i hnone
      obtain ⟨rfl, rfl⟩ := Prod.mk.inj (Except.ok.inj h)
      exact .inl ⟨hnone, rfl, rfl⟩
    · rename_i connective hsome
      obtain ⟨⟨others, behind'⟩, hothers, h⟩ := Outcome.bind_eq_ok_iff.mp h
      obtain ⟨rfl, rfl⟩ := Prod.mk.inj (Except.ok.inj h)
      exact .inr ⟨connective, others, hsome, hothers, rfl⟩
  · rintro ⟨first, behind, hfirst, ⟨hnone, rfl, rfl⟩ | ⟨connective, others, hsome, hothers, rfl⟩⟩
    · exact ⟨(c, rest), hfirst, by simp only [hnone]⟩
    · refine ⟨(first, behind), hfirst, ?_⟩
      simp only [hsome]
      exact Outcome.bind_eq_ok_iff.mpr ⟨(others, rest), hothers, rfl⟩

theorem readOperand_eq_ok_iff :
    readOperand (calls + 1) cs = .ok (c, rest) ↔
      (∃ inner behind, cs = '!' :: behind ∧ c = .not inner ∧
        readOperand calls behind = .ok (inner, rest)) ∨
      (∃ inner behind, cs = '(' :: behind ∧ c = .group inner ∧
        readExpression calls behind = .ok (inner, ')' :: rest)) ∨
      ∃ name, name ≠ [] ∧ c = .tag (String.ofList name) ∧ name ++ rest = cs ∧ IsTag name ∧
        EndsTag rest := by
  constructor
  · intro h
    cases cs with
    | nil => cases h
    | cons d cs =>
      rw [readOperand] at h
      split at h
      · rename_i hd
        obtain ⟨⟨inner, behind⟩, hinner, h⟩ := Outcome.bind_eq_ok_iff.mp h
        obtain ⟨rfl, rfl⟩ := Prod.mk.inj (Except.ok.inj h)
        exact .inl ⟨inner, cs, by rw [hd], rfl, hinner⟩
      · split at h
        · rename_i hd
          obtain ⟨⟨inner, behind⟩, hinner, h⟩ := Outcome.bind_eq_ok_iff.mp h
          dsimp only at h
          split at h
          · obtain ⟨rfl, rfl⟩ := Prod.mk.inj (Except.ok.inj h)
            exact .inr (.inl ⟨inner, cs, by rw [hd], rfl, hinner⟩)
          · cases h
        · split at h
          · cases h
          · rename_i hd
            obtain ⟨name, hc, happend, hname, hrest⟩ := readTag_eq_ok_iff.mp h
            refine .inr (.inr ⟨name, ?_, hc, happend, hname, hrest⟩)
            -- without a first character of the tag, the special one would have been refused
            rintro rfl
            obtain rfl : rest = d :: cs := happend
            exact hd (hrest d rfl)
  · rintro (⟨inner, behind, rfl, rfl, hinner⟩ | ⟨inner, behind, rfl, rfl, hinner⟩ |
      ⟨name, hne, rfl, rfl, hname, hrest⟩)
    · exact Outcome.bind_eq_ok_iff.mpr ⟨(inner, rest), hinner, rfl⟩
    · exact Outcome.bind_eq_ok_iff.mpr ⟨(inner, ')' :: rest), hinner, rfl⟩
    · obtain ⟨d, name, rfl⟩ := List.exists_cons_of_ne_nil hne
      have hd : isSpecial d = false := (hname d List.mem_cons_self).1
      have hnot : d ≠ '!' := by rintro rfl; cases hd
      have hopen : d ≠ '(' := by rintro rfl; cases hd
      rw [List.cons_append, readOperand, if_neg hnot, if_neg hopen, if_neg (by simp [hd]),
        readTag_eq_ok_iff]
      exact ⟨d :: name, rfl, rfl, hname, hrest⟩

theorem readOthers_eq_ok_iff :
    readOthers (calls + 1) connective cs = .ok (operands, rest) ↔
      (cs.head?.bind Connective.ofSign? = none ∧ operands = [] ∧ rest = cs) ∨
      ∃ operand others behind behind', cs = connective.sign :: behind ∧
        readOperand calls behind = .ok (operand, behind') ∧
        readOthers calls connective behind' = .ok (others, rest) ∧
        operands = operand :: others := by
  cases cs with
  | nil =>
    rw [readOthers]
    · simp only [Except.ok.injEq, Prod.mk.injEq, List.head?_nil, Option.bind_none, true_and]
      constructor
      · rintro ⟨rfl, rfl⟩
        exact .inl ⟨rfl, rfl⟩
      · rintro (⟨rfl, rfl⟩ | ⟨_, _, _, _, h, -⟩)
        · exact ⟨rfl, rfl⟩
        · cases h
    · simp
  | cons d cs =>
    rw [readOthers]
    constructor
    · intro h
      split at h
      · rename_i hd
        obtain ⟨rfl, rfl⟩ := Prod.mk.inj (Except.ok.inj h)
        exact .inl ⟨hd, rfl, rfl⟩
      · rename_i found hd
        split at h
        · rename_i heq
          obtain ⟨⟨operand, behind⟩, hoperand, h⟩ := Outcome.bind_eq_ok_iff.mp h
          obtain ⟨⟨others, behind'⟩, hothers, h⟩ := Outcome.bind_eq_ok_iff.mp h
          obtain ⟨rfl, rfl⟩ := Prod.mk.inj (Except.ok.inj h)
          refine .inr ⟨operand, others, cs, behind, ?_, hoperand, hothers, rfl⟩
          rw [ofSign?_eq_some_iff.mp hd, heq]
        · cases h
    · rintro (⟨hd, rfl, rfl⟩ | ⟨operand, others, behind, behind', hcs, hoperand, hothers, rfl⟩)
      · have hd' : Connective.ofSign? d = none := hd
        simp only [hd']
      · obtain ⟨rfl, rfl⟩ := List.cons.inj hcs
        have hd : Connective.ofSign? connective.sign = some connective :=
          ofSign?_eq_some_iff.mpr rfl
        simp only [hd, if_true]
        exact Outcome.bind_eq_ok_iff.mpr ⟨(operand, behind'), hoperand,
          Outcome.bind_eq_ok_iff.mpr ⟨(others, rest), hothers, rfl⟩⟩

theorem read_eq_ok_iff : read cs = .ok c ↔ readExpression (budget cs) cs = .ok (c, []) := by
  rw [read, Outcome.bind_eq_ok_iff]
  constructor
  · rintro ⟨⟨condition, behind⟩, hread, h⟩
    dsimp only at h
    split at h
    · obtain rfl := Except.ok.inj h
      exact hread
    · cases h
  · intro hread
    exact ⟨(c, []), hread, rfl⟩

end readers

/-- What the readers read and what they leave make up their text, when so many nested calls may
still be made. -/
structure Spells (calls : Nat) : Prop where
  expression : ∀ {cs rest : List Char} {c : Condition},
    readExpression calls cs = .ok (c, rest) → c.chars ++ rest = cs
  operand : ∀ {cs rest : List Char} {c : Condition},
    readOperand calls cs = .ok (c, rest) → c.chars ++ rest = cs
  others : ∀ {connective : Connective} {cs rest : List Char} {operands : List Condition},
    readOthers calls connective cs = .ok (operands, rest) →
      charsBehind connective.sign operands ++ rest = cs

theorem Spells.zero : Spells 0 where
  expression h := by cases h
  operand h := by cases h
  others h := by cases h

theorem Spells.succ {calls : Nat} (ih : Spells calls) : Spells (calls + 1) where
  expression {cs rest c} h := by
    obtain ⟨first, behind, hfirst, ⟨-, rfl, rfl⟩ | ⟨connective, others, -, hothers, rfl⟩⟩ :=
      readExpression_eq_ok_iff.mp h
    · exact ih.operand hfirst
    · -- the text is the first operand, the others behind their signs, and the rest
      rw [chars_join, List.append_assoc, ih.others hothers, ih.operand hfirst]
  operand {cs rest c} h := by
    rcases readOperand_eq_ok_iff.mp h with ⟨inner, behind, rfl, rfl, hinner⟩ |
      ⟨inner, behind, rfl, rfl, hinner⟩ | ⟨name, -, rfl, rfl, -, -⟩
    · rw [chars, List.cons_append, ih.operand hinner]
    · have hspell := ih.expression hinner
      rw [chars, List.cons_append, List.append_assoc, List.singleton_append, hspell]
    · rw [chars, String.toList_ofList]
  others {connective cs rest operands} h := by
    rcases readOthers_eq_ok_iff.mp h with ⟨-, rfl, rfl⟩ |
      ⟨operand, others, behind, behind', rfl, hoperand, hothers, rfl⟩
    · rfl
    · rw [charsBehind_cons, List.cons_append, List.append_assoc, ih.others hothers,
        ih.operand hoperand]

theorem spells (calls : Nat) : Spells calls := by
  induction calls with
  | zero => exact Spells.zero
  | succ calls ih => exact ih.succ

/-- A condition is printed as it was written. -/
theorem chars_of_read {cs : List Char} {c : Condition} (h : read cs = .ok c) : c.chars = cs := by
  have hspell := (spells _).expression (read_eq_ok_iff.mp h)
  rwa [List.append_nil] at hspell

end Simmer.Condition
