import Simmer.Text.Cut
import Mathlib.Data.List.Infix

/-!
What cuts find and what they leave. A cut takes the first place where its separator stands, so
a text written around a separator that the front of it lacks is cut where it was put together.
The pieces of a text hold no separator, and joining them by it gives back the text.
-/
namespace Simmer.Text

variable {a b c sep : Char} {cs ds before after p : List Char} {ps : List (List Char)}

section cutAt

theorem cutAt_append (h : sep ∉ before) (after : List Char) :
    cutAt sep (before ++ sep :: after) = some (before, after) := by
  induction before with
  | nil => simp [cutAt]
  | cons c before ih =>
    rw [List.mem_cons, not_or] at h
    simp [cutAt, Ne.symm h.1, ih h.2]

theorem not_mem_of_cutAt (h : cutAt sep cs = some (before, after)) : sep ∉ before := by
  induction cs generalizing before with
  | nil => simp [cutAt] at h
  | cons c cs ih =>
    by_cases hc : c = sep
    · simp only [cutAt, hc, if_true, Option.some.injEq, Prod.mk.injEq] at h
      simp [← h.1]
    · simp only [cutAt, hc, if_false, Option.map_eq_some_iff, Prod.mk.injEq] at h
      obtain ⟨⟨l, r⟩, hcut, rfl, rfl⟩ := h
      exact List.not_mem_cons_of_ne_of_not_mem (Ne.symm hc) (ih hcut)

theorem infix_of_cutAt (h : cutAt sep cs = some (before, after)) :
    before <:+: cs ∧ after <:+: cs := by
  rw [cutAt_eq_some h]
  exact ⟨(List.prefix_append _ _).isInfix,
    (List.infix_cons List.infix_rfl).trans (List.suffix_append _ _).isInfix⟩

end cutAt

section cutAtPair

theorem pair_prefix_cons : [a, b] <+: c :: cs ↔ c = a ∧ cs.head? = some b := by
  cases cs with
  | nil => simp
  | cons d cs => simp [List.cons_prefix_cons, eq_comm]

theorem pair_infix_cons : [a, b] <:+: c :: cs ↔ (c = a ∧ cs.head? = some b) ∨ [a, b] <:+: cs := by
  rw [List.infix_cons_iff, pair_prefix_cons]

/-- A character that is in no pair separates the places where the pair may stand. -/
theorem pair_infix_append_cons (hca : c ≠ a) (hcb : c ≠ b) :
    [a, b] <:+: cs ++ c :: ds ↔ [a, b] <:+: cs ∨ [a, b] <:+: ds := by
  induction cs with
  | nil => simp [pair_infix_cons, hca]
  | cons d cs ih =>
    rw [List.cons_append, pair_infix_cons, pair_infix_cons, ih, or_assoc]
    cases cs with
    | nil => simp [hcb]
    | cons e cs => rfl

theorem pair_infix_append_foreign {sep : List Char} (hsep : ∀ d ∈ sep, d ≠ a ∧ d ≠ b) :
    [a, b] <:+: sep ++ cs ↔ [a, b] <:+: cs := by
  induction sep with
  | nil => rfl
  | cons d sep ih =>
    obtain ⟨hd, hsep⟩ := List.forall_mem_cons.mp hsep
    rw [List.cons_append, pair_infix_cons, ih hsep, or_iff_right fun hhead => hd.1 hhead.1]

/-- Joining texts by characters that are in no pair puts no pair together. -/
theorem pair_infix_intercalate {sep : List Char} (hca : c ≠ a) (hcb : c ≠ b)
    (hsep : ∀ d ∈ sep, d ≠ a ∧ d ≠ b) (h : [a, b] <:+: (c :: sep).intercalate ps) :
    ∃ p ∈ ps, [a, b] <:+: p := by
  induction ps with
  | nil => simp at h
  | cons p ps ih =>
    cases ps with
    | nil => exact ⟨p, List.mem_singleton_self p, by rwa [List.intercalate_singleton] at h⟩
    | cons q ps =>
      rw [List.intercalate_cons_cons, List.append_assoc, List.cons_append,
        pair_infix_append_cons hca hcb, pair_infix_append_foreign hsep] at h
      rcases h with h | h
      · exact ⟨p, List.mem_cons_self, h⟩
      · obtain ⟨r, hr, h⟩ := ih h
        exact ⟨r, List.mem_cons_of_mem _ hr, h⟩

theorem cutAtPair_eq_none : cutAtPair a b cs = none ↔ ¬ [a, b] <:+: cs := by
  induction cs with
  | nil => simp [cutAtPair]
  | cons c cs ih =>
    rw [pair_infix_cons, cutAtPair]
    by_cases hc : c = a ∧ cs.head? = some b
    · simp [hc]
    · simp [hc, ih]

theorem isSome_cutAtPair : (cutAtPair a b cs).isSome = true ↔ [a, b] <:+: cs := by
  rw [Option.isSome_iff_ne_none, ne_eq, cutAtPair_eq_none, not_not]

theorem cutAtPair_append (hab : a ≠ b) (h : ¬ [a, b] <:+: before) (after : List Char) :
    cutAtPair a b (before ++ a :: b :: after) = some (before, after) := by
  induction before with
  | nil => simp [cutAtPair]
  | cons c before ih =>
    rw [pair_infix_cons, not_or] at h
    have hhere : ¬ (c = a ∧ (before ++ a :: b :: after).head? = some b) := by
      rintro ⟨hc, hhead⟩
      cases before with
      | nil => exact hab (Option.some.inj hhead)
      | cons d before => exact h.1 ⟨hc, hhead⟩
    rw [List.cons_append, cutAtPair, if_neg hhere, ih h.2]
    rfl

theorem not_infix_of_cutAtPair (h : cutAtPair a b cs = some (before, after)) :
    ¬ [a, b] <:+: before := by
  induction cs generalizing before with
  | nil => simp [cutAtPair] at h
  | cons c cs ih =>
    by_cases hc : c = a ∧ cs.head? = some b
    · rw [cutAtPair, if_pos hc] at h
      obtain ⟨rfl, -⟩ := Prod.mk.inj (Option.some.inj h)
      simp
    · rw [cutAtPair, if_neg hc] at h
      obtain ⟨⟨l, r⟩, hcut, hpair⟩ := Option.map_eq_some_iff.mp h
      obtain ⟨rfl, rfl⟩ := Prod.mk.inj hpair
      rw [pair_infix_cons, not_or]
      refine ⟨fun hhere => hc ⟨hhere.1, ?_⟩, ih hcut⟩
      have hhead := hhere.2
      cases l with
      | nil => simp at hhead
      | cons d l =>
        rw [cutAtPair_eq_some hcut]
        exact hhead

theorem infix_of_cutAtPair (h : cutAtPair a b cs = some (before, after)) :
    before <:+: cs ∧ after <:+: cs := by
  rw [cutAtPair_eq_some h]
  exact ⟨(List.prefix_append _ _).isInfix,
    (List.infix_cons (List.infix_cons List.infix_rfl)).trans (List.suffix_append _ _).isInfix⟩

/-- A cut takes the first of the places where the pair stands. -/
theorem prefix_of_cutAtPair (h : cutAtPair a b (cs ++ a :: b :: ds) = some (before, after)) :
    before <+: cs := by
  induction cs generalizing before with
  | nil =>
    rw [List.nil_append, cutAtPair, if_pos ⟨rfl, rfl⟩] at h
    obtain ⟨rfl, -⟩ := Prod.mk.inj (Option.some.inj h)
    exact List.prefix_rfl
  | cons c cs ih =>
    rw [List.cons_append, cutAtPair] at h
    split at h
    · obtain ⟨rfl, -⟩ := Prod.mk.inj (Option.some.inj h)
      exact List.nil_prefix
    · obtain ⟨⟨l, r⟩, hcut, hpair⟩ := Option.map_eq_some_iff.mp h
      obtain ⟨rfl, rfl⟩ := Prod.mk.inj hpair
      exact List.cons_prefix_cons.mpr ⟨rfl, ih hcut⟩

/-- A cut that leaves no pair behind it is at the one place where the pair stands. -/
theorem eq_of_cutAtPair_append (hab : a ≠ b)
    (h : cutAtPair a b (cs ++ a :: b :: ds) = some (before, after)) (hafter : ¬ [a, b] <:+: after) :
    before = cs ∧ after = ds := by
  obtain ⟨between, rfl⟩ := prefix_of_cutAtPair h
  have heq := cutAtPair_eq_some h
  rw [List.append_assoc, List.append_cancel_left_eq] at heq
  match between with
  | [] => simp_all
  | [c] =>
    simp only [List.cons_append, List.nil_append, List.cons.injEq] at heq
    exact absurd heq.2.1 hab
  | c :: d :: between =>
    simp only [List.cons_append, List.cons.injEq] at heq
    exact absurd ⟨between, ds, by simpa using heq.2.2⟩ hafter

end cutAtPair

section pieces

theorem infix_intercalate (sep : List Char) (h : p ∈ ps) : p <:+: sep.intercalate ps := by
  induction ps with
  | nil => simp at h
  | cons q ps ih =>
    cases ps with
    | nil =>
      rw [List.mem_singleton.mp h, List.intercalate_singleton]
    | cons r ps =>
      rw [List.intercalate_cons_cons]
      rcases List.mem_cons.mp h with rfl | h
      · exact (List.prefix_append _ _).isInfix.trans (List.prefix_append _ _).isInfix
      · exact (ih h).trans (List.suffix_append _ _).isInfix

theorem intercalate_consPiece (sep : List Char) (c : Char) (ps : List (List Char)) :
    sep.intercalate (consPiece c ps) = c :: sep.intercalate ps := by
  match ps with
  | [] => rfl
  | [p] => simp [consPiece]
  | p :: q :: ps => simp [consPiece]

theorem piecesAt_ne_nil (sep : Char) (cs : List Char) : piecesAt sep cs ≠ [] := by
  cases cs with
  | nil => simp [piecesAt]
  | cons c cs =>
    rw [piecesAt]
    split
    · simp
    · cases piecesAt sep cs <;> simp [consPiece]

/-- Joining the pieces gives back the text. -/
theorem intercalate_piecesAt (sep : Char) (cs : List Char) :
    [sep].intercalate (piecesAt sep cs) = cs := by
  induction cs with
  | nil => rfl
  | cons c cs ih =>
    by_cases hc : c = sep
    · obtain ⟨p, ps, hps⟩ := List.exists_cons_of_ne_nil (piecesAt_ne_nil sep cs)
      rw [piecesAt, if_pos hc, hps, List.intercalate_cons_cons, ← hps, ih, hc]
      rfl
    · rw [piecesAt, if_neg hc, intercalate_consPiece, ih]

theorem infix_of_mem_piecesAt (h : p ∈ piecesAt sep cs) : p <:+: cs := by
  have hinfix := infix_intercalate [sep] h
  rwa [intercalate_piecesAt] at hinfix

theorem not_mem_of_mem_piecesAt (h : p ∈ piecesAt sep cs) : sep ∉ p := by
  induction cs generalizing p with
  | nil => simp [List.mem_singleton.mp h]
  | cons c cs ih =>
    by_cases hc : c = sep
    · rw [piecesAt, if_pos hc] at h
      rcases List.mem_cons.mp h with rfl | h
      · simp
      · exact ih h
    · obtain ⟨q, qs, hqs⟩ := List.exists_cons_of_ne_nil (piecesAt_ne_nil sep cs)
      rw [piecesAt, if_neg hc, hqs, consPiece] at h
      rw [hqs] at ih
      rcases List.mem_cons.mp h with rfl | h
      · exact List.not_mem_cons_of_ne_of_not_mem (Ne.symm hc) (ih List.mem_cons_self)
      · exact ih (List.mem_cons_of_mem _ h)

/-- A separator between two texts keeps their pieces apart. -/
theorem piecesAt_append_cons (sep : Char) (cs ds : List Char) :
    piecesAt sep (cs ++ sep :: ds) = piecesAt sep cs ++ piecesAt sep ds := by
  induction cs with
  | nil => simp [piecesAt]
  | cons c cs ih =>
    rw [List.cons_append, piecesAt, piecesAt, ih]
    split
    · rfl
    · obtain ⟨p, ps, hps⟩ := List.exists_cons_of_ne_nil (piecesAt_ne_nil sep cs)
      rw [hps]
      rfl

theorem length_piecesAt (sep : Char) (cs : List Char) :
    (piecesAt sep cs).length = cs.count sep + 1 := by
  induction cs with
  | nil => rfl
  | cons c cs ih =>
    by_cases hc : c = sep
    · rw [piecesAt, if_pos hc, List.length_cons, ih, hc, List.count_cons_self]
    · obtain ⟨p, ps, hps⟩ := List.exists_cons_of_ne_nil (piecesAt_ne_nil sep cs)
      rw [piecesAt, if_neg hc, List.count_cons_of_ne hc, ← ih, hps]
      rfl

theorem piecesAt_of_not_mem (h : sep ∉ p) : piecesAt sep p = [p] := by
  induction p with
  | nil => rfl
  | cons c p ih =>
    rw [List.mem_cons, not_or] at h
    rw [piecesAt, if_neg (Ne.symm h.1), ih h.2, consPiece]

theorem piecesAt_append (h : sep ∉ p) (cs : List Char) :
    piecesAt sep (p ++ sep :: cs) = p :: piecesAt sep cs := by
  rw [piecesAt_append_cons, piecesAt_of_not_mem h, List.singleton_append]

/-- Texts without the separator are the pieces of what they are joined to. -/
theorem piecesAt_intercalate (hne : ps ≠ []) (h : ∀ p ∈ ps, sep ∉ p) :
    piecesAt sep ([sep].intercalate ps) = ps := by
  induction ps with
  | nil => exact absurd rfl hne
  | cons p ps ih =>
    obtain ⟨hp, hps⟩ := List.forall_mem_cons.mp h
    cases ps with
    | nil => rw [List.intercalate_singleton, piecesAt_of_not_mem hp]
    | cons q ps =>
      rw [List.intercalate_cons_cons, List.append_assoc, List.singleton_append,
        piecesAt_append hp, ih (List.cons_ne_nil _ _) hps]

/-- Behind each separator a piece begins. -/
theorem exists_piece_of_pair_infix (hba : b ≠ a) (h : [a, b] <:+: cs) :
    ∃ p, b :: p ∈ piecesAt a cs := by
  obtain ⟨front, back, rfl⟩ := h
  obtain ⟨p, ps, hps⟩ := List.exists_cons_of_ne_nil (piecesAt_ne_nil a back)
  have hcut : front ++ [a, b] ++ back = front ++ a :: b :: back := by simp
  rw [hcut, piecesAt_append_cons, piecesAt, if_neg hba, hps, consPiece]
  exact ⟨p, List.mem_append_right _ List.mem_cons_self⟩

theorem piecesAtPair_ne_nil (a b : Char) (cs : List Char) : piecesAtPair a b cs ≠ [] := by
  fun_induction piecesAtPair a b cs with
  | case1 => simp
  | case2 c d cs hne ih => cases piecesAtPair a b (d :: cs) <;> simp [consPiece]
  | case3 => simp

theorem intercalate_piecesAtPair (a b : Char) (cs : List Char) :
    [a, b].intercalate (piecesAtPair a b cs) = cs := by
  fun_induction piecesAtPair a b cs with
  | case1 c d cs hpair ih =>
    obtain ⟨p, ps, hps⟩ := List.exists_cons_of_ne_nil (piecesAtPair_ne_nil a b cs)
    rw [hps, List.intercalate_cons_cons, ← hps, ih, hpair.1, hpair.2]
    rfl
  | case2 c d cs hne ih => rw [intercalate_consPiece, ih]
  | case3 => simp

theorem infix_of_mem_piecesAtPair (h : p ∈ piecesAtPair a b cs) : p <:+: cs := by
  have hinfix := infix_intercalate [a, b] h
  rwa [intercalate_piecesAtPair] at hinfix

theorem length_piecesAtPair_le_one_iff :
    (piecesAtPair a b cs).length ≤ 1 ↔ ¬ [a, b] <:+: cs := by
  fun_induction piecesAtPair a b cs with
  | case1 c d cs hpair ih =>
    have hne := List.length_pos_iff.mpr (piecesAtPair_ne_nil a b cs)
    have hinfix : [a, b] <:+: c :: d :: cs :=
      pair_infix_cons.mpr (.inl ⟨hpair.1, congrArg some hpair.2⟩)
    simp only [List.length_cons, hinfix, not_true, iff_false]
    omega
  | case2 c d cs hpair ih =>
    obtain ⟨p, ps, hps⟩ := List.exists_cons_of_ne_nil (piecesAtPair_ne_nil a b (d :: cs))
    rw [hps] at ih ⊢
    rw [pair_infix_cons, or_iff_right fun hhere => hpair ⟨hhere.1, Option.some.inj hhere.2⟩, ← ih]
    rfl
  | case3 cs hshort =>
    have hlength : cs.length ≤ 1 := by
      match cs with
      | [] => simp
      | [c] => simp
      | c :: d :: cs => exact absurd rfl (hshort c d cs)
    refine iff_of_true (Nat.le_refl 1) fun hinfix => ?_
    have := hinfix.length_le
    simp only [List.length_cons, List.length_nil] at this
    omega

end pieces

end Simmer.Text
