import Simmer.Proofs.Printing.Definition

/-!
Concise rules written on a line. What is read from a line is words, none of them with an equals
sign and no part with a join. Such parts and such a result can be put on a line again, with a
blank on both sides of every join, and a rule for parts in any order is read back from it. So
the parts of a line can be put in another order on another line.
-/
namespace Simmer.ConciseRule

/-- A rule for parts in any order, as it stands on a line. -/
def written (r : ConciseRule) : String :=
  "+".intercalate (r.parts.map fun part => " " ++ part ++ " ") ++ "= " ++ Text.unwords r.result

/-- What the readers of lines see to: words where words are due, and no sign inside of them that
would be taken for one of the line. -/
structure Clean (r : ConciseRule) : Prop where
  parts_ne_nil : r.parts ≠ []
  result_ne_nil : r.result ≠ []
  parts_word : ∀ part ∈ r.parts, Text.isWord part.toList = true
  result_word : ∀ word ∈ r.result, Text.isWord word.toList = true
  parts_join : ∀ part ∈ r.parts, '+' ∉ part.toList
  parts_equals : ∀ part ∈ r.parts, '=' ∉ part.toList
  result_equals : ∀ word ∈ r.result, '=' ∉ word.toList

variable {r : ConciseRule} {line : String}

theorem splitParts_ne_nil {lhs : List Char} {ordered : Bool} {pieces : List (List Char)}
    (h : splitParts line lhs = .ok (ordered, pieces)) : pieces ≠ [] := by
  rcases splitParts_eq_ok_iff.mp h with ⟨-, -, rfl⟩ | ⟨-, -, rfl, -⟩
  · exact Text.piecesAt_ne_nil '+' lhs
  · exact Text.piecesAtPair_ne_nil '+' '>' lhs

theorem clean_of_parse (h : parse line = .ok r) : r.Clean := by
  obtain ⟨lhs, rhs, pieces, hcut, hresult, hequals, hpieces, hwords, hparts, hrhs⟩ :=
    parse_eq_ok_iff.mp h
  have hspec := splitParts_spec hpieces
  have hpart : ∀ part ∈ r.parts, ∃ piece ∈ pieces, Text.trim piece = part.toList := by
    intro part hmem
    have hmem' : part.toList ∈ pieces.map Text.trim := hparts ▸ List.mem_map_of_mem hmem
    exact List.mem_map.mp hmem'
  have hword : ∀ word ∈ r.result, word.toList ∈ Text.wordsOf rhs :=
    fun word hmem => hrhs ▸ List.mem_map_of_mem hmem
  refine ⟨?_, ?_, ?_, fun word hmem => Text.isWord_of_mem_wordsOf (hword word hmem),
    (readFrom_of_parse h).parts_join, ?_, ?_⟩
  · intro hnil
    rw [hnil, List.map_nil, eq_comm, List.map_eq_nil_iff] at hparts
    exact splitParts_ne_nil hpieces hparts
  · intro hnil
    rw [hnil, List.map_nil] at hrhs
    exact hresult hrhs.symm
  · intro part hmem
    obtain ⟨piece, hpiece, heq⟩ := hpart part hmem
    exact heq ▸ hwords piece hpiece
  · intro part hmem hsign
    obtain ⟨piece, hpiece, heq⟩ := hpart part hmem
    have hinside := (Text.trim_isInfix piece).trans (hspec piece hpiece).1
    exact Text.not_mem_of_cutAt hcut (hinside.mem (heq ▸ hsign))
  · intro word hmem hsign
    exact hequals ((Text.infix_of_mem_wordsOf (hword word hmem)).mem hsign)

/-- The parts may be put in another order. -/
theorem Clean.perm {parts : List String} (h : r.Clean) (hperm : parts.Perm r.parts) :
    Clean { r with parts := parts } where
  parts_ne_nil hnil := h.parts_ne_nil (List.nil_perm.mp (hnil ▸ hperm))
  result_ne_nil := h.result_ne_nil
  parts_word part hmem := h.parts_word part (hperm.mem_iff.mp hmem)
  result_word := h.result_word
  parts_join part hmem := h.parts_join part (hperm.mem_iff.mp hmem)
  parts_equals part hmem := h.parts_equals part (hperm.mem_iff.mp hmem)
  result_equals := h.result_equals

/-- The characters of a part between two joins, with a blank on both sides. -/
def piece (part : String) : List Char :=
  ' ' :: part.toList ++ [' ']

theorem mem_piece {part : String} {c : Char} : c ∈ piece part ↔ c = ' ' ∨ c ∈ part.toList := by
  simp only [piece, List.mem_append, List.mem_cons, List.not_mem_nil, or_false]
  tauto

theorem trim_piece {part : String} (h : Text.isWord part.toList = true) :
    Text.trim (piece part) = part.toList := by
  rw [piece, Text.trim_concat_blank rfl, Text.trim_cons_blank rfl]
  exact (Text.Inked.of_isWord h).2

theorem toList_written (r : ConciseRule) :
    r.written.toList = ['+'].intercalate (r.parts.map piece) ++ '=' :: ' ' ::
      (Text.unwords r.result).toList := by
  have hpieces : (r.parts.map fun part => " " ++ part ++ " ").map String.toList =
      r.parts.map piece := by
    rw [List.map_map]
    exact List.map_congr_left fun part _ => by simp [piece]
  rw [written, String.toList_append, String.toList_append, String.toList_intercalate, hpieces]
  simp

/-- Every piece begins with a blank, so no join in front of it is one that asks for order. -/
theorem splitParts_pieces (h : r.Clean) (line : String) :
    splitParts line (['+'].intercalate (r.parts.map piece)) = .ok (false, r.parts.map piece) := by
  have hcut : Text.piecesAt '+' (['+'].intercalate (r.parts.map piece)) = r.parts.map piece := by
    apply Text.piecesAt_intercalate (mt List.map_eq_nil_iff.mp h.parts_ne_nil)
    intro cs hcs hjoin
    obtain ⟨part, hpart, rfl⟩ := List.mem_map.mp hcs
    exact h.parts_join part hpart ((mem_piece.mp hjoin).resolve_left (by decide))
  refine splitParts_eq_ok_iff.mpr (.inl ⟨rfl, fun hpair => ?_, hcut.symm⟩)
  obtain ⟨cs, hcs⟩ := Text.exists_piece_of_pair_infix (by decide) hpair
  rw [hcut] at hcs
  obtain ⟨part, -, heq⟩ := List.mem_map.mp hcs
  exact absurd (List.cons.inj heq).1 (by decide)

/-- What is written of clean parts is read back. -/
theorem parse_written (h : r.Clean) (hloose : r.ordered = false) : parse r.written = .ok r := by
  have hequals : '=' ∉ ['+'].intercalate (r.parts.map piece) := by
    intro hsign
    rcases Text.mem_of_mem_intercalate hsign with hjoin | ⟨cs, hcs, hsign⟩
    · exact absurd (List.mem_singleton.mp hjoin) (by decide)
    · obtain ⟨part, hpart, rfl⟩ := List.mem_map.mp hcs
      exact h.parts_equals part hpart ((mem_piece.mp hsign).resolve_left (by decide))
  have hcut : Text.cutAt '=' r.written.toList = some
      (['+'].intercalate (r.parts.map piece), ' ' :: (Text.unwords r.result).toList) := by
    rw [toList_written, Text.cutAt_append hequals]
  have hwords : Text.wordsOf (' ' :: (Text.unwords r.result).toList) =
      r.result.map String.toList := by
    rw [Text.wordsOf_cons_blank rfl, Text.wordsOf_toList, Text.words_unwords h.result_word]
  refine parse_eq_ok_iff.mpr ⟨_, _, r.parts.map piece, hcut, ?_, ?_, ?_, ?_, ?_, hwords.symm⟩
  · rw [hwords]
    exact mt List.map_eq_nil_iff.mp h.result_ne_nil
  · intro hsign
    rcases Text.mem_unwords (List.mem_of_ne_of_mem (by decide) hsign) with hblank | hword
    · exact absurd hblank (by decide)
    · obtain ⟨word, hword, hsign⟩ := hword
      exact h.result_equals word hword hsign
  · rw [hloose, splitParts_pieces h]
  · intro cs hcs
    obtain ⟨part, hpart, rfl⟩ := List.mem_map.mp hcs
    rw [trim_piece (h.parts_word part hpart)]
    exact h.parts_word part hpart
  · rw [List.map_map]
    exact List.map_congr_left fun part hpart => (trim_piece (h.parts_word part hpart)).symm

end Simmer.ConciseRule
