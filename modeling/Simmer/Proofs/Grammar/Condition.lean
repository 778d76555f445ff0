import Simmer.Proofs.Printing.Condition

/-!
The grammar of conditions. A condition has a text when its tags can stand in one, and when a
negation and a joining of two or more have nothing under them that is joined without parentheses.
The conditions that are read are these and no others, and each of them is read from its print
alone: the readers go through the print of a condition up to whatever stands behind it, and never
ask for more nested calls than twice its length.
-/
namespace Simmer.Condition

/-- Whether a condition stands under a sign as it is, without parentheses around it. -/
def isOperand : Condition → Bool
  | .tag _ | .not _ | .group _ => true
  | .all _ | .any _ => false

/-- The conditions that have a text. -/
inductive WellFormed : Condition → Prop
  | tag {name : String} (hne : name ≠ "")
      (hname : ∀ c ∈ name.toList, isSpecial c = false ∧ Text.isBlank c = false) :
      WellFormed (.tag name)
  | not {inner : Condition} (hinner : WellFormed inner) (hoperand : inner.isOperand = true) :
      WellFormed (.not inner)
  | group {inner : Condition} (hinner : WellFormed inner) : WellFormed (.group inner)
  | all {operands : List Condition} (htwo : 2 ≤ operands.length)
      (hall : ∀ c ∈ operands, WellFormed c) (hoperand : ∀ c ∈ operands, c.isOperand = true) :
      WellFormed (.all operands)
  | any {operands : List Condition} (htwo : 2 ≤ operands.length)
      (hall : ∀ c ∈ operands, WellFormed c) (hoperand : ∀ c ∈ operands, c.isOperand = true) :
      WellFormed (.any operands)

theorem WellFormed.join {first other : Condition} {others : List Condition}
    (hall : ∀ c ∈ first :: other :: others, c.WellFormed ∧ c.isOperand = true)
    (connective : Connective) : (connective.join (first :: other :: others)).WellFormed := by
  have htwo : 2 ≤ (first :: other :: others).length := by simp
  cases connective with
  | both => exact .all htwo (fun c hc => (hall c hc).1) fun c hc => (hall c hc).2
  | either => exact .any htwo (fun c hc => (hall c hc).1) fun c hc => (hall c hc).2

section sound

/-- What the readers read is well formed, when so many nested calls may still be made. -/
structure ReadsWell (calls : Nat) : Prop where
  expression : ∀ {cs rest : List Char} {c : Condition},
    readExpression calls cs = .ok (c, rest) → c.WellFormed
  operand : ∀ {cs rest : List Char} {c : Condition},
    readOperand calls cs = .ok (c, rest) → c.WellFormed ∧ c.isOperand = true
  others : ∀ {connective : Connective} {cs rest : List Char} {operands : List Condition},
    readOthers calls connective cs = .ok (operands, rest) →
      ∀ c ∈ operands, c.WellFormed ∧ c.isOperand = true

theorem ReadsWell.zero : ReadsWell 0 where
  expression h := by cases h
  operand h := by cases h
  others h := by cases h

/-- Where a sign is ahead, the operand behind it is read. -/
theorem ne_nil_of_readOthers {calls : Nat} {connective found : Connective}
    {cs rest : List Char} {operands : List Condition}
    (h : readOthers calls connective cs = .ok (operands, rest))
    (hsign : cs.head?.bind Connective.ofSign? = some found) : operands ≠ [] := by
  cases calls with
  | zero => cases h
  | succ calls =>
    rcases readOthers_eq_ok_iff.mp h with ⟨hnone, -, -⟩ | ⟨_, _, _, _, -, -, -, rfl⟩
    · rw [hnone] at hsign
      cases hsign
    · exact List.cons_ne_nil _ _

theorem ReadsWell.succ {calls : Nat} (ih : ReadsWell calls) : ReadsWell (calls + 1) where
  expression {cs rest c} h := by
    obtain ⟨first, behind, hfirst, ⟨-, rfl, rfl⟩ | ⟨connective, others, hsign, hothers, rfl⟩⟩ :=
      readExpression_eq_ok_iff.mp h
    · exact (ih.operand hfirst).1
    · obtain ⟨other, others, rfl⟩ :=
        List.exists_cons_of_ne_nil (ne_nil_of_readOthers hothers hsign)
      exact .join (List.forall_mem_cons.mpr ⟨ih.operand hfirst, ih.others hothers⟩) connective
  operand {cs rest c} h := by
    rcases readOperand_eq_ok_iff.mp h with ⟨inner, behind, -, rfl, hinner⟩ |
      ⟨inner, behind, -, rfl, hinner⟩ | ⟨name, hne, rfl, -, hname, -⟩
    · obtain ⟨hwell, hoperand⟩ := ih.operand hinner
      exact ⟨.not hwell hoperand, rfl⟩
    · exact ⟨.group (ih.expression hinner), rfl⟩
    · refine ⟨.tag ?_ ?_, rfl⟩
      · rwa [ne_eq, ← String.toList_eq_nil_iff, String.toList_ofList]
      · rwa [String.toList_ofList]
  others {connective cs rest operands} h := by
    rcases readOthers_eq_ok_iff.mp h with ⟨-, rfl, -⟩ |
      ⟨operand, others, behind, behind', -, hoperand, hothers, rfl⟩
    · exact fun c hc => absurd hc List.not_mem_nil
    · exact List.forall_mem_cons.mpr ⟨ih.operand hoperand, ih.others hothers⟩

theorem readsWell (calls : Nat) : ReadsWell calls := by
  induction calls with
  | zero => exact ReadsWell.zero
  | succ calls ih => exact ih.succ

end sound

section complete

variable {rest : List Char}

/-- The text goes on, if it does, with something that no expression goes on with. -/
def EndsExpression (rest : List Char) : Prop :=
  EndsTag rest ∧ rest.head?.bind Connective.ofSign? = none

theorem isSpecial_sign (connective : Connective) : isSpecial connective.sign = true := by
  cases connective <;> rfl

theorem head?_bind_sign (connective : Connective) (cs : List Char) :
    (connective.sign :: cs).head?.bind Connective.ofSign? = some connective :=
  ofSign?_eq_some_iff.mpr rfl

/-- A tag may stand in front of a sign, and of whatever may stand behind the expression. -/
theorem EndsExpression.charsBehind (hrest : EndsExpression rest) (connective : Connective)
    (operands : List Condition) : EndsTag (charsBehind connective.sign operands ++ rest) := by
  cases operands with
  | nil => exact hrest.1
  | cons operand operands =>
    rw [charsBehind_cons, List.cons_append]
    intro c hc
    obtain rfl : connective.sign = c := Option.some.inj hc
    exact isSpecial_sign connective

/-- A condition is read in front of whatever cannot go on with it, as an operand if it is one. -/
structure ReadBack (c : Condition) : Prop where
  operand : c.isOperand = true → ∀ (calls : Nat) (rest : List Char),
    2 * c.chars.length ≤ calls → EndsTag rest →
      readOperand calls (c.chars ++ rest) = .ok (c, rest)
  expression : ∀ (calls : Nat) (rest : List Char),
    2 * c.chars.length < calls → EndsExpression rest →
      readExpression calls (c.chars ++ rest) = .ok (c, rest)

/-- An operand makes an expression of its own. -/
theorem ReadBack.of_operand {c : Condition}
    (h : ∀ (calls : Nat) (rest : List Char), 2 * c.chars.length ≤ calls → EndsTag rest →
      readOperand calls (c.chars ++ rest) = .ok (c, rest)) : ReadBack c where
  operand _ := h
  expression calls rest hcalls hrest := by
    obtain ⟨calls, rfl⟩ := Nat.exists_eq_succ_of_ne_zero (Nat.ne_zero_of_lt hcalls)
    refine readExpression_eq_ok_iff.mpr ⟨c, rest, h calls rest (by omega) hrest.1, ?_⟩
    exact .inl ⟨hrest.2, rfl, rfl⟩

theorem WellFormed.chars_ne_nil {c : Condition} (h : c.WellFormed) : c.chars ≠ [] := by
  induction h with
  | tag hne => rwa [chars, ne_eq, String.toList_eq_nil_iff]
  | not | group => simp [chars]
  | @all operands htwo _ _ ih | @any operands htwo _ _ ih =>
    cases operands with
    | nil => simp at htwo
    | cons first others =>
      rw [chars, charsJoined_cons]
      exact List.append_ne_nil_of_left_ne_nil (ih first List.mem_cons_self) _

/-- The operands behind the first are read, each behind its sign. -/
theorem readOthers_charsBehind {operands : List Condition} {connective : Connective}
    (h : ∀ c ∈ operands, c.isOperand = true ∧ ReadBack c) {calls : Nat}
    (hcalls : 2 * (charsBehind connective.sign operands).length < calls)
    (hrest : EndsExpression rest) :
    readOthers calls connective (charsBehind connective.sign operands ++ rest) =
      .ok (operands, rest) := by
  induction operands generalizing calls with
  | nil =>
    obtain ⟨calls, rfl⟩ := Nat.exists_eq_succ_of_ne_zero (Nat.ne_zero_of_lt hcalls)
    exact readOthers_eq_ok_iff.mpr (.inl ⟨hrest.2, rfl, rfl⟩)
  | cons operand operands ih =>
    obtain ⟨⟨hoperand, hread⟩, hall⟩ := List.forall_mem_cons.mp h
    obtain ⟨calls, rfl⟩ := Nat.exists_eq_succ_of_ne_zero (Nat.ne_zero_of_lt hcalls)
    rw [charsBehind_cons, List.length_cons, List.length_append] at hcalls
    have hfirst := hread.operand hoperand calls _ (by omega) (hrest.charsBehind connective operands)
    have hothers : readOthers calls connective (charsBehind connective.sign operands ++ rest) =
        .ok (operands, rest) := ih hall (by omega)
    rw [charsBehind_cons, List.cons_append, List.append_assoc]
    exact readOthers_eq_ok_iff.mpr
      (.inr ⟨operand, operands, _, _, rfl, hfirst, hothers, rfl⟩)

/-- Two operands or more that are read back are read back joined. -/
theorem ReadBack.join {operands : List Condition} (htwo : 2 ≤ operands.length)
    (hne : ∀ c ∈ operands, c.chars ≠ [])
    (hread : ∀ c ∈ operands, c.isOperand = true ∧ ReadBack c) (connective : Connective) :
    ReadBack (connective.join operands) where
  operand hoperand := by cases connective <;> cases hoperand
  expression calls rest hcalls hrest := by
    match operands, htwo with
    | first :: other :: others, _ =>
      obtain ⟨⟨hoperand, hfirst⟩, hall⟩ := List.forall_mem_cons.mp hread
      obtain ⟨calls, rfl⟩ := Nat.exists_eq_succ_of_ne_zero (Nat.ne_zero_of_lt hcalls)
      have hlength := List.length_pos_iff.mpr (hne first List.mem_cons_self)
      rw [chars_join, List.length_append] at hcalls
      have hfirst' := hfirst.operand hoperand calls _ (by omega)
        (hrest.charsBehind connective (other :: others))
      have hothers : readOthers calls connective
          (charsBehind connective.sign (other :: others) ++ rest) = .ok (other :: others, rest) :=
        readOthers_charsBehind hall (by omega) hrest
      rw [chars_join, List.append_assoc]
      refine readExpression_eq_ok_iff.mpr ⟨first, _, hfirst', .inr ?_⟩
      refine ⟨connective, other :: others, ?_, hothers, rfl⟩
      rw [charsBehind_cons, List.cons_append, head?_bind_sign]

theorem WellFormed.readBack {c : Condition} (h : c.WellFormed) : ReadBack c := by
  induction h with
  | @tag name hne hname =>
    refine .of_operand fun calls rest hcalls hrest => ?_
    rw [chars] at hcalls ⊢
    have hlist : name.toList ≠ [] := by rwa [ne_eq, String.toList_eq_nil_iff]
    have hlength := List.length_pos_iff.mpr hlist
    obtain ⟨calls, rfl⟩ := Nat.exists_eq_succ_of_ne_zero (n := calls) (by omega)
    refine readOperand_eq_ok_iff.mpr (.inr (.inr ⟨name.toList, hlist, ?_, rfl, hname, hrest⟩))
    rw [String.ofList_toList]
  | @not inner _ hoperand ih =>
    refine .of_operand fun calls rest hcalls hrest => ?_
    rw [chars] at hcalls ⊢
    rw [List.length_cons] at hcalls
    obtain ⟨calls, rfl⟩ := Nat.exists_eq_succ_of_ne_zero (n := calls) (by omega)
    refine readOperand_eq_ok_iff.mpr (.inl ⟨inner, _, rfl, rfl, ?_⟩)
    exact ih.operand hoperand calls rest (by omega) hrest
  | @group inner _ ih =>
    refine .of_operand fun calls rest hcalls hrest => ?_
    rw [chars] at hcalls ⊢
    rw [List.length_cons, List.length_append, List.length_singleton] at hcalls
    obtain ⟨calls, rfl⟩ := Nat.exists_eq_succ_of_ne_zero (n := calls) (by omega)
    rw [List.cons_append, List.append_assoc]
    refine readOperand_eq_ok_iff.mpr (.inr (.inl ⟨inner, _, rfl, rfl, ?_⟩))
    exact ih.expression calls _ (by omega) ⟨fun c hc => Option.some.inj hc ▸ rfl, rfl⟩
  | all htwo hall hoperand ih =>
    exact .join htwo (fun c hc => (hall c hc).chars_ne_nil) (fun c hc => ⟨hoperand c hc, ih c hc⟩)
      .both
  | any htwo hall hoperand ih =>
    exact .join htwo (fun c hc => (hall c hc).chars_ne_nil) (fun c hc => ⟨hoperand c hc, ih c hc⟩)
      .either

end complete

/-- Exactly the well-formed conditions are read, each from its print. -/
theorem read_eq_ok_iff_wellFormed {cs : List Char} {c : Condition} :
    read cs = .ok c ↔ c.WellFormed ∧ c.chars = cs := by
  constructor
  · intro h
    exact ⟨(readsWell _).expression (read_eq_ok_iff.mp h), chars_of_read h⟩
  · rintro ⟨hwell, rfl⟩
    have hread := hwell.readBack.expression (budget c.chars) [] (by rw [budget]; omega)
      ⟨by simp [EndsTag], rfl⟩
    rw [List.append_nil] at hread
    exact read_eq_ok_iff.mpr hread

theorem parse_eq_ok_iff {s : String} {c : Condition} :
    parse s = .ok c ↔ c.WellFormed ∧ c.text = s := by
  rw [parse, Outcome.mapError_eq_ok_iff, read_eq_ok_iff_wellFormed, text, ← String.toList_inj,
    String.toList_ofList]

/-- Reading the print decides whether there is one to read. -/
instance (c : Condition) : Decidable c.WellFormed :=
  decidable_of_iff (parse c.text = .ok c) (by rw [parse_eq_ok_iff, and_iff_left rfl])

theorem mem_charsJoined {sign d : Char} {operands : List Condition}
    (h : d ∈ charsJoined sign operands) : d = sign ∨ ∃ c ∈ operands, d ∈ c.chars := by
  cases operands with
  | nil => cases h
  | cons first others =>
    rw [charsJoined_cons, List.mem_append] at h
    rcases h with h | h
    · exact .inr ⟨first, List.mem_cons_self, h⟩
    · obtain ⟨c, hc, h⟩ := List.mem_flatMap.mp h
      rcases List.mem_cons.mp h with rfl | h
      · exact .inl rfl
      · exact .inr ⟨c, List.mem_cons_of_mem _ hc, h⟩

/-- The print of a condition is ink. -/
theorem WellFormed.isBlank_of_mem {c : Condition} (h : c.WellFormed) :
    ∀ d ∈ c.chars, Text.isBlank d = false := by
  induction h with
  | tag _ hname =>
    intro d hd
    exact (hname d hd).2
  | not _ _ ih =>
    rw [chars, List.forall_mem_cons]
    exact ⟨rfl, ih⟩
  | group _ ih =>
    rw [chars, List.forall_mem_cons, List.forall_mem_append]
    exact ⟨rfl, ih, by simp [Text.isBlank]⟩
  | all _ _ _ ih | any _ _ _ ih =>
    intro d hd
    rw [chars] at hd
    rcases mem_charsJoined hd with rfl | ⟨c, hc, hd⟩
    · rfl
    · exact ih c hc d hd

/-- The texts of conditions and what they are read as. A text is read as a condition exactly when
the condition is well formed and printed as that text. So no two well-formed conditions have one
print, and a text that is the print of none is refused. -/
theorem parse_is_inverse_of_text :
    (∀ s c, parse s = .ok c ↔ c.WellFormed ∧ c.text = s) ∧
      (∀ c d : Condition, c.WellFormed → d.WellFormed → c.text = d.text → c = d) ∧
      ∀ s, (∀ c : Condition, c.WellFormed → c.text ≠ s) →
        ∃ flaw, parse s = .error (.invalidCondition s flaw) := by
  refine ⟨fun s c => parse_eq_ok_iff, fun c d hc hd htext => ?_, fun s hs => ?_⟩
  · have hread := parse_eq_ok_iff.mpr ⟨hc, rfl⟩
    rw [htext, parse_eq_ok_iff.mpr ⟨hd, rfl⟩] at hread
    exact (Except.ok.inj hread).symm
  · cases hread : read s.toList with
    | error flaw => exact ⟨flaw, by rw [parse, hread]; rfl⟩
    | ok c =>
      obtain ⟨hwell, hchars⟩ := read_eq_ok_iff_wellFormed.mp hread
      exact absurd (by rw [text, hchars, String.ofList_toList]) (hs c hwell)

/-- Grain of any kind but two. -/
def glutenFree : Condition :=
  .all [.tag "Grain", .not (.group (.any [.tag "Wheat", .tag "Rye"]))]

theorem parse_is_inverse_of_text_grain :
    (parse "Grain&!(Wheat|Rye)" = .ok glutenFree ∧ glutenFree.WellFormed ∧
        glutenFree.text = "Grain&!(Wheat|Rye)") ∧
      (∃ c, parse "Grain&!(Wheat|Rye)" = .ok c ∧ c.WellFormed ∧ c.text = glutenFree.text ∧
        c = glutenFree) ∧
      (∀ c : Condition, c.WellFormed → c.text ≠ "Grain&Wheat|Rye") ∧
      ∃ flaw, parse "Grain&Wheat|Rye" = .error (.invalidCondition "Grain&Wheat|Rye" flaw) := by
  obtain ⟨hread, hprint, hrefused⟩ := parse_is_inverse_of_text
  have hparse : parse "Grain&!(Wheat|Rye)" = .ok glutenFree := by decide +kernel
  obtain ⟨hwell, htext⟩ := (hread _ _).mp hparse
  have hmixed : ∀ c : Condition, c.WellFormed → c.text ≠ "Grain&Wheat|Rye" := by
    intro c hc htext
    have hok := (hread _ _).mpr ⟨hc, htext⟩
    have herror : (parse "Grain&Wheat|Rye").toOption = none := by decide +kernel
    rw [hok] at herror
    cases herror
  refine ⟨⟨hparse, hwell, htext⟩, ⟨glutenFree, hparse, hwell, rfl, ?_⟩, hmixed, ?_⟩
  · exact hprint glutenFree glutenFree hwell hwell rfl
  · exact hrefused _ hmixed

end Simmer.Condition
