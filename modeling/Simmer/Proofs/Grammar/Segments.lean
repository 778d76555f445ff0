import Simmer.Groups
import Simmer.Proofs.Grammar.Balance
import Simmer.Proofs.Text.Cut

/-!
Segments. A text is cut at every `+` in front of which as many pairs of parentheses were closed
as opened. The segments joined by `+` are the text, the segments of a balanced text are balanced,
and such a text has a join outside of its parentheses when it has more than one of them.
-/
namespace Simmer.Groups

open Text (consPiece)

/-- The segments of `cs`, which stands behind `front`. -/
def segmentsBehind : List Char → List Char → List (List Char)
  | _, [] => [[]]
  | front, c :: cs =>
    if c = '+' ∧ front.count '(' = front.count ')' then [] :: segmentsBehind (front ++ [c]) cs
    else consPiece c (segmentsBehind (front ++ [c]) cs)

def segments (cs : List Char) : List (List Char) :=
  segmentsBehind [] cs

variable {c : Char} {cs front p : List Char} {ps : List (List Char)} {depth : Nat}

theorem segmentsBehind_join (h : front.count '(' = front.count ')') :
    segmentsBehind front ('+' :: cs) = [] :: segmentsBehind (front ++ ['+']) cs :=
  if_pos ⟨rfl, h⟩

theorem segmentsBehind_other (h : ¬ (c = '+' ∧ front.count '(' = front.count ')')) :
    segmentsBehind front (c :: cs) = consPiece c (segmentsBehind (front ++ [c]) cs) :=
  if_neg h

theorem segmentsBehind_ne_nil (front cs : List Char) : segmentsBehind front cs ≠ [] := by
  cases cs with
  | nil => simp [segmentsBehind]
  | cons c cs =>
    rw [segmentsBehind]
    split
    · simp
    · cases segmentsBehind (front ++ [c]) cs <;> simp [consPiece]

theorem segments_ne_nil (cs : List Char) : segments cs ≠ [] :=
  segmentsBehind_ne_nil [] cs

/-- Behind `front` so many pairs are open. -/
def OpenAt (depth : Nat) (front : List Char) : Prop :=
  front.count '(' = depth + front.count ')'

theorem OpenAt.opened (h : OpenAt depth front) : OpenAt (depth + 1) (front ++ ['(']) := by
  have hopen : (front ++ ['(']).count '(' = front.count '(' + 1 := by simp
  have hclose : (front ++ ['(']).count ')' = front.count ')' := by simp
  unfold OpenAt at h ⊢
  omega

theorem OpenAt.closed (h : OpenAt (depth + 1) front) : OpenAt depth (front ++ [')']) := by
  have hopen : (front ++ [')']).count '(' = front.count '(' := by simp
  have hclose : (front ++ [')']).count ')' = front.count ')' + 1 := by simp
  unfold OpenAt at h ⊢
  omega

theorem OpenAt.other (h : OpenAt depth front) (hopen : c ≠ '(') (hclose : c ≠ ')') :
    OpenAt depth (front ++ [c]) := by
  have hopened : (front ++ [c]).count '(' = front.count '(' := by simp [hopen]
  have hclosed : (front ++ [c]).count ')' = front.count ')' := by simp [hclose]
  unfold OpenAt at h ⊢
  omega

theorem OpenAt.balance_iff (h : OpenAt depth front) :
    front.count '(' = front.count ')' ↔ depth = 0 := by
  unfold OpenAt at h
  omega

/-- Where no more is closed than was opened, a join outside is one that separates segments. -/
theorem hasOuterJoin_iff {inner : Nat} (hfront : OpenAt depth front)
    (h : openBehind depth cs = some inner) :
    hasOuterJoin depth cs = true ↔ 2 ≤ (segmentsBehind front cs).length := by
  induction cs generalizing front depth with
  | nil => simp [hasOuterJoin, segmentsBehind]
  | cons c cs ih =>
    have hlength (hjoin : ¬ (c = '+' ∧ front.count '(' = front.count ')')) :
        (segmentsBehind front (c :: cs)).length = (segmentsBehind (front ++ [c]) cs).length := by
      obtain ⟨p, ps, hps⟩ := List.exists_cons_of_ne_nil (segmentsBehind_ne_nil (front ++ [c]) cs)
      rw [segmentsBehind_other hjoin, hps]
      rfl
    rw [hasOuterJoin]
    by_cases hopen : c = '('
    · subst hopen
      rw [if_pos rfl, hlength (by simp), ih hfront.opened (by rwa [openBehind_open] at h)]
    rw [if_neg hopen]
    by_cases hclose : c = ')'
    · subst hclose
      cases depth with
      | zero => cases h
      | succ depth => rw [if_pos rfl, hlength (by simp), ← ih hfront.closed h]; rfl
    rw [if_neg hclose]
    rw [openBehind_other hopen hclose] at h
    by_cases hjoin : c = '+' ∧ depth = 0
    · obtain ⟨rfl, hdepth⟩ := hjoin
      have hne := List.length_pos_iff.mpr (segmentsBehind_ne_nil (front ++ ['+']) cs)
      rw [segmentsBehind_join (hfront.balance_iff.mpr hdepth), List.length_cons]
      simp only [hdepth, and_self, if_true, true_iff]
      omega
    · rw [if_neg hjoin, hlength (by rwa [hfront.balance_iff]), ih (hfront.other hopen hclose) h]

theorem intercalate_segmentsBehind (front cs : List Char) :
    ['+'].intercalate (segmentsBehind front cs) = cs := by
  induction cs generalizing front with
  | nil => rfl
  | cons c cs ih =>
    rw [segmentsBehind]
    split
    · rename_i hjoin
      obtain ⟨p, ps, hps⟩ := List.exists_cons_of_ne_nil (segmentsBehind_ne_nil (front ++ [c]) cs)
      rw [hps, List.intercalate_cons_cons, ← hps, ih, hjoin.1]
      rfl
    · rw [Text.intercalate_consPiece, ih]

/-- The segments stand in the text, joined by what separates them. -/
theorem infix_of_mem_segments (h : p ∈ segments cs) : p <:+: cs := by
  have hinfix := Text.infix_intercalate ['+'] h
  rwa [segments, intercalate_segmentsBehind] at hinfix

/-- Where all pairs are closed in the end, they are closed at the end of each segment. -/
theorem balanced_segmentsBehind (hfront : OpenAt depth front) (h : openBehind depth cs = some 0)
    (hsegs : segmentsBehind front cs = p :: ps) :
    openBehind depth p = some 0 ∧ ∀ q ∈ ps, Balanced q := by
  induction cs generalizing front depth p ps with
  | nil =>
    obtain ⟨rfl, rfl⟩ := List.cons.inj hsegs
    exact ⟨h, by simp⟩
  | cons c cs ih =>
    obtain ⟨q, qs, hqs⟩ := List.exists_cons_of_ne_nil (segmentsBehind_ne_nil (front ++ [c]) cs)
    by_cases hjoin : c = '+' ∧ front.count '(' = front.count ')'
    · obtain ⟨rfl, hfronts⟩ := hjoin
      obtain rfl := hfront.balance_iff.mp hfronts
      rw [segmentsBehind_join hfronts] at hsegs
      obtain ⟨rfl, rfl⟩ := List.cons.inj hsegs
      obtain ⟨hq, hall⟩ := ih (hfront.other (by decide) (by decide)) h hqs
      rw [hqs]
      exact ⟨rfl, List.forall_mem_cons.mpr ⟨hq, hall⟩⟩
    rw [segmentsBehind_other hjoin, hqs] at hsegs
    obtain ⟨rfl, rfl⟩ := List.cons.inj hsegs
    by_cases hopen : c = '('
    · subst hopen
      rw [openBehind_open] at h ⊢
      exact ih hfront.opened h hqs
    by_cases hclose : c = ')'
    · subst hclose
      cases depth with
      | zero => cases h
      | succ depth =>
        rw [openBehind_close] at h ⊢
        exact ih hfront.closed h hqs
    · rw [openBehind_other hopen hclose] at h ⊢
      exact ih (hfront.other hopen hclose) h hqs

theorem balanced_of_mem_segments (h : Balanced cs) (hp : p ∈ segments cs) : Balanced p := by
  obtain ⟨q, qs, hqs⟩ := List.exists_cons_of_ne_nil (segmentsBehind_ne_nil [] cs)
  have hfront : OpenAt 0 [] := rfl
  obtain ⟨hq, hall⟩ := balanced_segmentsBehind hfront h hqs
  rw [segments, hqs] at hp
  rcases List.mem_cons.mp hp with rfl | hp
  · exact hq
  · exact hall p hp

end Simmer.Groups
