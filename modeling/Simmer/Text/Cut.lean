/-!
Cuts of a text at a separator of one or two characters: at the first place where it
stands, or at every place. A cut loses the separators and nothing else.
-/
namespace Simmer.Text

/-- What stands before and after the first `sep`. -/
def cutAt (sep : Char) : List Char → Option (List Char × List Char)
  | [] => none
  | c :: cs =>
    if c = sep then some ([], cs)
    else (cutAt sep cs).map fun (before, after) => (c :: before, after)

/-- What stands before and after the first `a` that a `b` follows at once. -/
def cutAtPair (a b : Char) : List Char → Option (List Char × List Char)
  | [] => none
  | c :: cs =>
    if c = a ∧ cs.head? = some b then some ([], cs.tail)
    else (cutAtPair a b cs).map fun (before, after) => (c :: before, after)

/-- Put a character at the front of the first piece. -/
def consPiece (c : Char) : List (List Char) → List (List Char)
  | [] => [[c]]
  | piece :: pieces => (c :: piece) :: pieces

/-- The pieces between one `sep` and the next, empty ones included. -/
def piecesAt (sep : Char) : List Char → List (List Char)
  | [] => [[]]
  | c :: cs => if c = sep then [] :: piecesAt sep cs else consPiece c (piecesAt sep cs)

/-- The pieces between one `ab` and the next, found from the left and never overlapping. -/
def piecesAtPair (a b : Char) : List Char → List (List Char)
  | c :: d :: cs =>
    if c = a ∧ d = b then [] :: piecesAtPair a b cs
    else consPiece c (piecesAtPair a b (d :: cs))
  | cs => [cs]

/-- A line without the carriage return that belongs to its end. -/
def dropReturn (line : List Char) : List Char :=
  if line.getLast? = some '\r' then line.dropLast else line

/-- Lines from the pieces at line feeds. The last piece has no end, so a carriage return stays
there, and it is no line when it is empty. -/
def endLines : List (List Char) → List (List Char)
  | [] => []
  | [last] => if last.isEmpty then [] else [last]
  | piece :: pieces => dropReturn piece :: endLines pieces

/-- The lines of a text, without their ends: a line feed, or a carriage return and one. -/
def lines (s : String) : List (List Char) :=
  endLines (piecesAt '\n' s.toList)

theorem cutAt_eq_some {sep : Char} {cs before after : List Char}
    (h : cutAt sep cs = some (before, after)) : cs = before ++ sep :: after := by
  induction cs generalizing before with
  | nil => simp [cutAt] at h
  | cons c cs ih =>
    by_cases hc : c = sep
    · simp only [cutAt, hc, if_true, Option.some.injEq, Prod.mk.injEq] at h
      obtain ⟨rfl, rfl⟩ := h
      simp [hc]
    · simp only [cutAt, hc, if_false, Option.map_eq_some_iff, Prod.mk.injEq] at h
      obtain ⟨⟨l, r⟩, hcut, rfl, rfl⟩ := h
      simp [ih hcut]

theorem cutAt_eq_none {sep : Char} {cs : List Char} : cutAt sep cs = none ↔ sep ∉ cs := by
  induction cs with
  | nil => simp [cutAt]
  | cons c cs ih =>
    by_cases hc : c = sep
    · simp [cutAt, hc]
    · simp [cutAt, hc, ih, Ne.symm hc]

theorem cutAtPair_eq_some {a b : Char} {cs before after : List Char}
    (h : cutAtPair a b cs = some (before, after)) : cs = before ++ a :: b :: after := by
  induction cs generalizing before with
  | nil => simp [cutAtPair] at h
  | cons c cs ih =>
    by_cases hc : c = a ∧ cs.head? = some b
    · simp only [cutAtPair, hc, and_self, if_true, Option.some.injEq, Prod.mk.injEq] at h
      obtain ⟨rfl, rfl⟩ := h
      obtain ⟨rfl, hb⟩ := hc
      cases cs with
      | nil => simp at hb
      | cons d ds =>
        simp only [List.head?_cons, Option.some.injEq] at hb
        simp [hb]
    · simp only [cutAtPair, hc, if_false, Option.map_eq_some_iff, Prod.mk.injEq] at h
      obtain ⟨⟨l, r⟩, hcut, rfl, rfl⟩ := h
      simp [ih hcut]

end Simmer.Text
