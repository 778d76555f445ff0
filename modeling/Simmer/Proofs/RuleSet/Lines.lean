import Simmer.Proofs.RuleSet.Faults
import Simmer.Proofs.Text.Cut
import Mathlib.Data.List.TakeWhile

/-!
Rule sets read line by line. How a line ends shows in no definition, so a text may be cut at its
line feeds alone. Lines in a row define what the first of them define and then what the others
do; the number of the first line shows in the fault only, and a line without a definition shows
nowhere but in the count.
-/
namespace Simmer

/-- The fault as it is when there are more lines in front. -/
def Fault.later (lines : Nat) : Fault → Fault
  | .atLine line inner => .atLine (line + lines) inner
  | fault => fault

namespace Definition

/-- Whether a line has nothing but blanks in front of its comment or its end. -/
def isIdle (line : List Char) : Bool :=
  (line.takeWhile (· ≠ '#')).all Text.isBlank

theorem ofLine?_of_isIdle {line : List Char} (h : isIdle line = true) :
    ofLine? line = .ok none := by
  have hblank : Text.trimStart (line.takeWhile (· ≠ '#')) = [] :=
    List.dropWhile_eq_nil_iff.mpr (List.all_eq_true.mp h)
  rw [ofLine?, Text.trim, hblank]
  rfl

/-- A carriage return at the end of a line is blank, or stands in its comment. -/
theorem ofLine?_dropReturn (line : List Char) : ofLine? (Text.dropReturn line) = ofLine? line := by
  by_cases hreturn : line.getLast? = some '\r'
  · obtain ⟨front, rfl⟩ := List.getLast?_eq_some_iff.mp hreturn
    have hdrop : Text.dropReturn (front ++ ['\r']) = front := by simp [Text.dropReturn]
    have htrim : Text.trim ((front ++ ['\r']).takeWhile (· ≠ '#')) =
        Text.trim (front.takeWhile (· ≠ '#')) := by
      rw [List.takeWhile_append]
      split
      · rename_i hwhole
        have hfront : front.takeWhile (· ≠ '#') = front :=
          (List.takeWhile_prefix _).eq_of_length hwhole
        rw [hfront]
        exact Text.trim_concat_blank (by decide) front
      · rfl
    rw [hdrop, ofLine?, ofLine?, htrim]
  · rw [Text.dropReturn, if_neg hreturn]

end Definition

namespace RuleSet

variable {number : Nat} {lines : List (List Char)}

theorem append_cons (d : Option Definition) (s t : RuleSet) :
    (cons d s).append t = cons d (s.append t) := by
  cases d with
  | none => rfl
  | some d => cases d <;> rfl

theorem ofLines_append (number : Nat) (xs ys : List (List Char)) :
    ofLines number (xs ++ ys) =
      ofLines number xs >>= fun s => (ofLines (number + xs.length) ys).map s.append := by
  induction xs generalizing number with
  | nil =>
    change ofLines number ys = (ofLines number ys).map empty.append
    cases ofLines number ys <;> rfl
  | cons line xs ih =>
    have hlength : number + (line :: xs).length = number + 1 + xs.length := by
      rw [List.length_cons]
      omega
    rw [List.cons_append, ofLines, ofLines, ih, hlength]
    cases (Definition.ofLine? line).mapError (Fault.atLine number) with
    | error fault => rfl
    | ok d =>
      cases ofLines (number + 1) xs with
      | error fault => rfl
      | ok s =>
        cases ofLines (number + 1 + xs.length) ys with
        | error fault => rfl
        | ok t => exact congrArg Except.ok (append_cons d s t).symm

/-- The number of the first line counts in a fault, and nowhere else. -/
theorem ofLines_add (number more : Nat) (lines : List (List Char)) :
    ofLines (number + more) lines = (ofLines number lines).mapError (Fault.later more) := by
  induction lines generalizing number with
  | nil => rfl
  | cons line lines ih =>
    rw [ofLines, ofLines, Nat.add_right_comm, ih]
    cases Definition.ofLine? line with
    | error fault => rfl
    | ok d => cases ofLines (number + 1) lines <;> rfl

/-- Every fault is that of one of the lines, with the number of this line around it. -/
theorem ofLines_fails {fault : Fault} (h : ofLines number lines = .error fault) :
    ∃ line inner, fault = .atLine line inner ∧ inner.OfReading ∧
      number ≤ line ∧ line < number + lines.length := by
  induction lines generalizing number with
  | nil => cases h
  | cons first lines ih =>
    rcases Outcome.bind_eq_error_iff.mp h with hfirst | ⟨d, -, hrest⟩
    · cases hline : Definition.ofLine? first with
      | ok d =>
        rw [hline] at hfirst
        cases hfirst
      | error inner =>
        rw [hline] at hfirst
        refine ⟨number, inner, (Except.error.inj hfirst).symm, ?_, Nat.le_refl number, by simp⟩
        exact Definition.ofLine?_fails first inner hline
    · rcases Outcome.bind_eq_error_iff.mp hrest with hlines | ⟨s, -, hok⟩
      · obtain ⟨line, inner, hfault, hinner, hfrom, hto⟩ := ih hlines
        exact ⟨line, inner, hfault, hinner, by omega, by simp only [List.length_cons]; omega⟩
      · cases hok

/-- Lines that define nothing may be left out. -/
theorem ofLines_filter {s : RuleSet} (number number' : Nat) (lines : List (List Char)) :
    ofLines number lines = .ok s ↔
      ofLines number' (lines.filter fun line => !Definition.isIdle line) = .ok s := by
  induction lines generalizing number number' s with
  | nil => rfl
  | cons line lines ih =>
    by_cases hidle : Definition.isIdle line = true
    · have hfilter : (line :: lines).filter (fun line => !Definition.isIdle line) =
          lines.filter fun line => !Definition.isIdle line :=
        List.filter_cons_of_neg (by simp [hidle])
      rw [hfilter, ← ih (number + 1) number', ofLines,
        Definition.ofLine?_of_isIdle hidle]
      cases ofLines (number + 1) lines <;> rfl
    · rw [List.filter_cons_of_pos (by simpa using hidle), ofLines, ofLines]
      simp only [Outcome.bind_eq_ok_iff, Outcome.mapError_eq_ok_iff]
      simp only [ih (number + 1) (number' + 1)]

/-- The end of a line has no part in what it defines, and an empty piece defines nothing. -/
theorem ofLines_endLines (number : Nat) (pieces : List (List Char)) :
    ofLines number (Text.endLines pieces) = ofLines number pieces := by
  induction pieces generalizing number with
  | nil => rfl
  | cons piece pieces ih =>
    cases pieces with
    | nil => cases piece <;> rfl
    | cons next pieces =>
      rw [Text.endLines, ofLines, ofLines, Definition.ofLine?_dropReturn, ih]
      simp

theorem parse_eq_ofLines (text : String) :
    parse text = ofLines 1 (Text.piecesAt '\n' text.toList) :=
  ofLines_endLines 1 _

example : Text.lines "salty: brined\r\n\nwet: Water\r" =
    ["salty: brined".toList, [], "wet: Water\r".toList] := by
  decide

/-- The text behind a line feed is read as it is alone, on later lines. -/
theorem parse_append (a b : String) :
    parse (a ++ "\n" ++ b) = parse a >>= fun s =>
      ((parse b).mapError (Fault.later (a.toList.count '\n' + 1))).map s.append := by
  have hpieces : Text.piecesAt '\n' (a ++ "\n" ++ b).toList =
      Text.piecesAt '\n' a.toList ++ Text.piecesAt '\n' b.toList := by
    rw [← Text.piecesAt_append_cons]
    simp
  rw [parse_eq_ofLines, parse_eq_ofLines, parse_eq_ofLines, hpieces, ofLines_append,
    Text.length_piecesAt, ofLines_add]

/-- Reading is compositional. A text joined to another by a line feed has its faults where they
are and then those of the other, moved by the lines in front; without faults it defines what the
two define. A fault has one line around it, and idle lines define nothing wherever they stand. -/
theorem parse_is_compositional :
    (∀ a b fault, parse a = .error fault → parse (a ++ "\n" ++ b) = .error fault) ∧
    (∀ a b s line inner, parse a = .ok s → parse b = .error (.atLine line inner) →
      parse (a ++ "\n" ++ b) = .error (.atLine (line + a.toList.count '\n' + 1) inner)) ∧
    (∀ a b s t, parse a = .ok s → parse b = .ok t →
      parse (a ++ "\n" ++ b) = .ok ⟨s.rules ++ t.rules, s.aliases ++ t.aliases⟩) ∧
    (∀ text fault, parse text = .error fault → ∃ line inner, fault = .atLine line inner ∧
      1 ≤ line ∧ line ≤ text.toList.count '\n' + 1 ∧ ∀ line' inner', inner ≠ .atLine line' inner') ∧
    (∀ text text', ((Text.lines text).filter fun line => !Definition.isIdle line) =
        ((Text.lines text').filter fun line => !Definition.isIdle line) →
      ∀ s, parse text = .ok s ↔ parse text' = .ok s) := by
  refine ⟨?_, ?_, ?_, ?_, ?_⟩
  · intro a b fault ha
    rw [parse_append, ha]
    rfl
  · intro a b s line inner ha hb
    rw [parse_append, ha, hb]
    rfl
  · intro a b s t ha hb
    rw [parse_append, ha, hb]
    rfl
  · intro text fault h
    rw [parse_eq_ofLines] at h
    obtain ⟨line, inner, hfault, hinner, hfrom, hto⟩ := ofLines_fails h
    rw [Text.length_piecesAt] at hto
    exact ⟨line, inner, hfault, hfrom, by omega, hinner.ne_atLine⟩
  · intro text text' hlines s
    rw [parse, parse, ofLines_filter 1 1, hlines, ← ofLines_filter 1 1]

/-- A fault in the first text and one in the second, two texts without a fault, and a text with
blank lines and a comment put in. -/
theorem parse_is_compositional_kitchen :
    parse "# kitchen\nsalty\nbrined" = .error (.atLine 2 (.invalidRule "salty" .unknownForm)) ∧
    parse "# kitchen\nsalty: brined\n\nhot" =
      .error (.atLine 4 (.invalidRule "hot" .unknownForm)) ∧
    parse "salty: brined\nwet: Water" = .ok ⟨[], [⟨"salty", ["brined"]⟩, ⟨"wet", ["Water"]⟩]⟩ ∧
    (∃ line inner, Fault.atLine 2 (.invalidRule "salty" .unknownForm) = .atLine line inner ∧
      ∀ line' inner', inner ≠ .atLine line' inner') ∧
    (∀ s, parse "salty: brined" = .ok s ↔ parse "\n  # kitchen\nsalty: brined\n" = .ok s) := by
  obtain ⟨hfirst, hsecond, hboth, hfault, hidle⟩ := parse_is_compositional
  have hsalty : parse "# kitchen\nsalty" = .error (.atLine 2 (.invalidRule "salty" .unknownForm)) := by
    decide +kernel
  have hbrined : parse "# kitchen\nsalty: brined" = .ok ⟨[], [⟨"salty", ["brined"]⟩]⟩ := by
    decide +kernel
  refine ⟨?_, ?_, ?_, ?_, ?_⟩
  · exact hfirst "# kitchen\nsalty" "brined" _ hsalty
  · exact hsecond "# kitchen\nsalty: brined" "\nhot" _ 2 _ hbrined (by decide +kernel)
  · exact hboth "salty: brined" "wet: Water" ⟨[], [⟨"salty", ["brined"]⟩]⟩
      ⟨[], [⟨"wet", ["Water"]⟩]⟩ (by decide +kernel) (by decide +kernel)
  · obtain ⟨line, inner, heq, -, -, hinner⟩ := hfault _ _ hsalty
    exact ⟨line, inner, heq, hinner⟩
  · exact hidle "salty: brined" "\n  # kitchen\nsalty: brined\n" (by decide +kernel)

end RuleSet

end Simmer
