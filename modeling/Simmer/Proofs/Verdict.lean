import Simmer.Condition.Reader

/-!
What a condition asks and how it decides. Operands are consulted from the left up to the first
one that settles the verdict, and the verdict is that of the plain reading, in which all operands
count. What is not asked plays no part: under other answers to what was not asked, a condition
asks the same again and decides the same.
-/
namespace Simmer.Condition

/-- Conditions are trees: a property of all of them is carried from the operands to the joining. -/
@[elab_as_elim]
theorem treeInduction {motive : Condition → Prop} (tag : ∀ name, motive (.tag name))
    (not : ∀ inner, motive inner → motive (.not inner))
    (all : ∀ operands, (∀ c ∈ operands, motive c) → motive (.all operands))
    (any : ∀ operands, (∀ c ∈ operands, motive c) → motive (.any operands))
    (group : ∀ inner, motive inner → motive (.group inner)) (c : Condition) : motive c :=
  match c with
  | .tag name => tag name
  | .not inner => not inner (treeInduction tag not all any group inner)
  | .all operands => all operands fun c _ => treeInduction tag not all any group c
  | .any operands => any operands fun c _ => treeInduction tag not all any group c
  | .group inner => group inner (treeInduction tag not all any group inner)

/-- The plain reading of a condition: every operand counts, and nothing is asked in an order. -/
def Holds (truth : String → Bool) : Condition → Prop
  | .tag name => truth name = true
  | .not inner => ¬ inner.Holds truth
  | .all operands => ∀ c ∈ operands, c.Holds truth
  | .any operands => ∃ c, ∃ _ : c ∈ operands, c.Holds truth
  | .group inner => inner.Holds truth

/-- Consults operands from the left, up to the first one with the verdict `stop`. -/
def consultUntil (stop : Bool) (truth : String → Bool) : List Condition → Bool × List String
  | [] => (!stop, [])
  | operand :: operands =>
    if operand.evaluate truth = stop then (stop, operand.asked truth)
    else
      ((consultUntil stop truth operands).1,
        operand.asked truth ++ (consultUntil stop truth operands).2)

section operands

variable {stop : Bool} {f g truth : String → Bool} {operands : List Condition}

theorem consultAll_eq : consultAll truth operands = consultUntil false truth operands := by
  induction operands with
  | nil => rfl
  | cons operand operands ih =>
    rw [consultAll, consultUntil, evaluate, asked, ← ih]
    split <;> simp_all

theorem consultAny_eq : consultAny truth operands = consultUntil true truth operands := by
  induction operands with
  | nil => rfl
  | cons operand operands ih =>
    rw [consultAny, consultUntil, evaluate, asked, ← ih]
    split <;> simp_all

theorem consultUntil_eq_stop_iff :
    (consultUntil stop truth operands).1 = stop ↔ ∃ c ∈ operands, c.evaluate truth = stop := by
  induction operands with
  | nil => simp [consultUntil]
  | cons operand operands ih =>
    rw [consultUntil]
    split
    · rename_i hstop
      simp [hstop]
    · rename_i hgo
      simp [hgo, ih]

theorem asked_consultUntil_subset :
    (consultUntil stop truth operands).2 ⊆ operands.flatMap (asked truth) := by
  induction operands with
  | nil => exact List.Subset.refl _
  | cons operand operands ih =>
    rw [consultUntil, List.flatMap_cons]
    split
    · exact List.subset_append_left _ _
    · exact List.append_subset.mpr ⟨List.subset_append_left _ _,
        List.Subset.trans ih (List.subset_append_right _ _)⟩

/-- Operands that each go by what they ask stop at the same place under the same answers. -/
theorem consultUntil_congr
    (hlocal : ∀ c ∈ operands, (∀ name ∈ c.asked f, g name = f name) → c.consult g = c.consult f)
    (h : ∀ name ∈ (consultUntil stop f operands).2, g name = f name) :
    consultUntil stop g operands = consultUntil stop f operands := by
  induction operands with
  | nil => rfl
  | cons operand operands ih =>
    obtain ⟨hfirst, hrest⟩ := List.forall_mem_cons.mp hlocal
    rw [consultUntil] at h
    by_cases hstop : operand.evaluate f = stop
    · rw [if_pos hstop] at h
      have hverdict : operand.evaluate g = operand.evaluate f := congrArg Prod.fst (hfirst h)
      have hasked : operand.asked g = operand.asked f := congrArg Prod.snd (hfirst h)
      rw [consultUntil, consultUntil, hverdict, hasked, if_pos hstop, if_pos hstop]
    · rw [if_neg hstop, List.forall_mem_append] at h
      have hverdict : operand.evaluate g = operand.evaluate f := congrArg Prod.fst (hfirst h.1)
      have hasked : operand.asked g = operand.asked f := congrArg Prod.snd (hfirst h.1)
      rw [consultUntil, consultUntil, hverdict, hasked, if_neg hstop, if_neg hstop, ih hrest h.2]

end operands

section tree

variable {f g truth : String → Bool} {inner : Condition} {operands : List Condition}

theorem evaluate_not : (not inner).evaluate truth = !inner.evaluate truth := rfl

theorem evaluate_group : (group inner).evaluate truth = inner.evaluate truth := rfl

theorem consult_all : (all operands).consult truth = consultUntil false truth operands := by
  rw [consult, consultAll_eq]

theorem consult_any : (any operands).consult truth = consultUntil true truth operands := by
  rw [consult, consultAny_eq]

/-- The verdict is that of the plain reading. -/
theorem evaluate_iff_holds {c : Condition} : c.evaluate truth = true ↔ c.Holds truth := by
  induction c using treeInduction with
  | tag name => rw [Holds]; rfl
  | not inner ih => rw [Holds, ← ih, evaluate_not, Bool.not_eq_true', Bool.not_eq_true]
  | group inner ih => rw [Holds, ← ih, evaluate_group]
  | all operands ih =>
    rw [Holds, evaluate, consult_all, ← Bool.not_eq_false, consultUntil_eq_stop_iff]
    simp only [not_exists, not_and, Bool.not_eq_false]
    exact forall₂_congr ih
  | any operands ih =>
    rw [Holds, evaluate, consult_any, consultUntil_eq_stop_iff]
    simp only [exists_prop]
    exact exists_congr fun c => and_congr_right (ih c)

theorem mentionsList_eq : mentionsList operands = operands.flatMap mentions := by
  induction operands with
  | nil => rfl
  | cons operand operands ih => rw [mentionsList, ih, List.flatMap_cons]

theorem asked_consultUntil_subset_mentions {stop : Bool}
    (h : ∀ c ∈ operands, c.asked truth ⊆ c.mentions) :
    (consultUntil stop truth operands).2 ⊆ mentionsList operands := by
  rw [mentionsList_eq]
  intro name hname
  obtain ⟨c, hc, hasked⟩ := List.mem_flatMap.mp (asked_consultUntil_subset hname)
  exact List.mem_flatMap.mpr ⟨c, hc, h c hc hasked⟩

theorem asked_subset_mentions (c : Condition) : c.asked truth ⊆ c.mentions := by
  induction c using treeInduction with
  | tag name => exact List.Subset.refl _
  | not inner ih => exact ih
  | group inner ih => exact ih
  | all operands ih =>
    rw [asked, consult_all]
    exact asked_consultUntil_subset_mentions ih
  | any operands ih =>
    rw [asked, consult_any]
    exact asked_consultUntil_subset_mentions ih

theorem asked_subset_symbols (c : Condition) : c.asked truth ⊆ c.symbols :=
  fun _ hname => Text.mem_ascending.mpr (c.asked_subset_mentions hname)

/-- Under other answers to what it does not ask, a condition is consulted in the same way. -/
theorem consult_congr {c : Condition} (h : ∀ name ∈ c.asked f, g name = f name) :
    c.consult g = c.consult f := by
  induction c using treeInduction with
  | tag name =>
    have hname : g name = f name := h name List.mem_cons_self
    rw [consult, consult, hname]
  | not inner ih => rw [consult, consult, ih h]
  | group inner ih => rw [consult, consult, ih h]
  | all operands ih =>
    rw [asked, consult_all] at h
    rw [consult_all, consult_all, consultUntil_congr ih h]
  | any operands ih =>
    rw [asked, consult_any] at h
    rw [consult_any, consult_any, consultUntil_congr ih h]

/-- The verdict depends on nothing but the answers for the symbols. -/
theorem evaluate_congr {c : Condition} (h : ∀ name ∈ c.symbols, g name = f name) :
    c.evaluate g = c.evaluate f :=
  congrArg Prod.fst (consult_congr fun name hname => h name (c.asked_subset_symbols hname))

theorem satisfiedBy_congr {c : Condition} {tags tags' : List String}
    (h : ∀ name ∈ c.symbols, name ∈ tags ↔ name ∈ tags') :
    c.satisfiedBy tags = c.satisfiedBy tags' := by
  apply evaluate_congr
  intro name hname
  rw [Bool.eq_iff_iff, List.contains_iff_mem, List.contains_iff_mem]
  exact h name hname

end tree

/-- What a condition asks decides its verdict. The verdict is that of the plain reading, and only
symbols are asked. Where two truths agree on what is asked under the first, the second is asked
the same in the same order and leads to the same verdict. So truths, stored values and sets of
tags that do not differ on a symbol are not told apart. -/
theorem verdict_is_of_what_is_asked (c : Condition) (f : String → Bool) :
    (c.evaluate f = true ↔ c.Holds f) ∧
      (∀ name ∈ c.asked f, name ∈ c.symbols) ∧
      (∀ g : String → Bool, (∀ name ∈ c.asked f, g name = f name) →
        c.asked g = c.asked f ∧ c.evaluate g = c.evaluate f) ∧
      (∀ g : String → Bool, (∀ name ∈ c.symbols, g name = f name) →
        c.evaluate g = c.evaluate f) ∧
      (∀ values values' : Roster Bool,
        (∀ name ∈ c.symbols,
          (values.get? name).getD false = (values'.get? name).getD false) →
        c.evaluateFrom values = c.evaluateFrom values') ∧
      ∀ tags tags' : List String, (∀ name ∈ c.symbols, name ∈ tags ↔ name ∈ tags') →
        c.satisfiedBy tags = c.satisfiedBy tags' := by
  refine ⟨evaluate_iff_holds, fun name hname => c.asked_subset_symbols hname, fun g h => ?_,
    fun g h => evaluate_congr h, fun values values' h => evaluate_congr h,
    fun tags tags' h => satisfiedBy_congr h⟩
  have hsame := consult_congr h
  exact ⟨congrArg Prod.snd hsame, congrArg Prod.fst hsame⟩

/-- Not hot and sour at once, but sweet or hot. -/
def mild : Condition :=
  .all [.not (.group (.all [.tag "hot", .tag "sour"])), .any [.tag "sweet", .tag "hot"], .all []]

/-- Of what is hot and sour it is not asked whether it is sweet. That it is fried, or is stored as
not sour, makes no difference either. -/
theorem verdict_is_of_what_is_asked_hot_and_sour :
    ((∀ name ∈ mild.asked ["hot", "sour"].contains,
        ["hot", "sour", "sweet"].contains name = ["hot", "sour"].contains name) ∧
      mild.asked ["hot", "sour", "sweet"].contains = ["hot", "sour"] ∧
      mild.evaluate ["hot", "sour", "sweet"].contains = false) ∧
    ((∀ name ∈ mild.symbols,
        ["fried", "hot", "sour"].contains name = ["hot", "sour"].contains name) ∧
      mild.evaluate ["fried", "hot", "sour"].contains = false) ∧
    ((∀ name ∈ mild.symbols,
        (((Roster.empty.insert "hot" true).insert "sour" false).get? name).getD false =
          ((Roster.empty.insert "hot" true).get? name).getD false) ∧
      mild.evaluateFrom ((Roster.empty.insert "hot" true).insert "sour" false) = true) ∧
    (∀ name ∈ mild.symbols, name ∈ ["fried", "hot"] ↔ name ∈ ["hot"]) ∧
      mild.satisfiedBy ["fried", "hot"] = true := by
  obtain ⟨-, -, hlocal, hsame, hstored, htags⟩ :=
    verdict_is_of_what_is_asked mild ["hot", "sour"].contains
  have hasked : ∀ name ∈ mild.asked ["hot", "sour"].contains,
      ["hot", "sour", "sweet"].contains name = ["hot", "sour"].contains name := by decide
  have hfried : ∀ name ∈ mild.mentions,
      ["fried", "hot", "sour"].contains name = ["hot", "sour"].contains name := by decide
  have hvalues : ∀ name ∈ mild.mentions,
      (((Roster.empty.insert "hot" true).insert "sour" false).get? name).getD false =
        ((Roster.empty.insert "hot" true).get? name).getD false := by decide
  have hmember : ∀ name ∈ mild.mentions, name ∈ ["fried", "hot"] ↔ name ∈ ["hot"] := by decide
  simp only [symbols, Text.mem_ascending] at hsame hstored htags ⊢
  refine ⟨⟨hasked, ?_, ?_⟩, ⟨hfried, ?_⟩, ⟨hvalues, ?_⟩, hmember, ?_⟩
  · rw [(hlocal _ hasked).1]
    decide
  · rw [(hlocal _ hasked).2]
    decide
  · rw [hsame _ hfried]
    decide
  · rw [hstored _ _ hvalues]
    decide
  · rw [htags _ _ hmember]
    decide

end Simmer.Condition
