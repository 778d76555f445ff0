import Simmer.RuleSet.Reader
import Simmer.Proofs.Grammar.Token
import Simmer.Proofs.Outcome

/-!
The faults of reading a definition. Each is about a token, a pattern, a rule or a variable. None
of them is about a line: the number of the line is added once, where the lines are counted.
-/
namespace Simmer

namespace Outcome

variable {ε α β : Type} {P : ε → Prop} {x : Except ε α}

/-- The result has the property, if it is a fault. -/
def FailsOnly (P : ε → Prop) (x : Except ε α) : Prop :=
  ∀ e, x = .error e → P e

theorem failsOnly_ok (a : α) : FailsOnly P (.ok a : Except ε α) :=
  fun _ h => nomatch h

theorem failsOnly_error {e : ε} (h : P e) : FailsOnly P (.error e : Except ε α) :=
  fun _ heq => Except.error.inj heq ▸ h

theorem FailsOnly.bind {f : α → Except ε β} (hx : FailsOnly P x) (hf : ∀ a, FailsOnly P (f a)) :
    FailsOnly P (x >>= f) := by
  intro e he
  rcases bind_eq_error_iff.mp he with hfirst | ⟨a, -, hrest⟩
  · exact hx e hfirst
  · exact hf a e hrest

theorem FailsOnly.map (hx : FailsOnly P x) (f : α → β) : FailsOnly P (x.map f) :=
  fun e he => hx e (map_eq_error_iff.mp he)

theorem FailsOnly.mapM {f : α → Except ε β} (hf : ∀ a, FailsOnly P (f a)) (xs : List α) :
    FailsOnly P (xs.mapM f) := by
  intro e he
  obtain ⟨a, -, ha⟩ := exists_of_mapM_eq_error he
  exact hf a e ha

end Outcome

open Outcome (FailsOnly failsOnly_ok failsOnly_error)

/-- A fault that reading a definition may end with. -/
def Fault.OfReading : Fault → Prop
  | invalidToken .. | invalidPattern .. | invalidRule .. => True
  | unboundVariable _ | undeclaredCollector _ => True
  | invalidCondition .. | diverging .. | atLine .. => False

theorem Fault.OfReading.ne_atLine {fault : Fault} (h : fault.OfReading) (line : Nat)
    (inner : Fault) : fault ≠ .atLine line inner := by
  rintro rfl
  exact h

namespace Token

theorem parse_fails (text : String) : FailsOnly Fault.OfReading (parse text) := by
  intro fault hfault
  obtain ⟨flaw, rfl⟩ := exists_flaw_of_parse hfault
  exact trivial

theorem parseWords_fails (text : String) : FailsOnly Fault.OfReading (parseWords text) :=
  .mapM parse_fails _

theorem checkSlot_fails (last : Bool) (t : Token) :
    FailsOnly Fault.OfReading (t.checkSlot last) := by
  unfold checkSlot
  split
  · exact failsOnly_error trivial
  · exact failsOnly_ok _

theorem checkBase_fails (tokens : List Token) : FailsOnly Fault.OfReading (checkBase tokens) := by
  unfold checkBase
  split
  · exact failsOnly_ok _
  · exact checkSlot_fails true _

end Token

theorem Template.parse_fails (text : String) : FailsOnly Fault.OfReading (parse text) := by
  refine .bind (Token.parseWords_fails text) fun tokens => ?_
  split
  · exact failsOnly_error trivial
  · exact .bind (Token.checkBase_fails tokens) fun _ => failsOnly_ok _

namespace Clause

theorem readHeader_fails (text : String) (declared : List Collector) (words : List String) :
    FailsOnly Fault.OfReading (readHeader text declared words) := by
  induction words generalizing declared with
  | nil => exact failsOnly_ok _
  | cons word words ih =>
    refine .bind (Token.parse_fails word) fun token => ?_
    split
    · dsimp only
      split
      · exact failsOnly_error trivial
      · exact ih _
    · exact failsOnly_ok _

theorem readBodyWord_fails (text word : String) :
    FailsOnly Fault.OfReading (readBodyWord text word) := by
  unfold readBodyWord
  split
  · exact failsOnly_error trivial
  · split
    · exact failsOnly_error trivial
    · refine .bind (Token.parse_fails word) fun token => ?_
      split
      · exact failsOnly_error trivial
      · exact failsOnly_ok _

theorem ofWords_fails (text : String) (words : List String) :
    FailsOnly Fault.OfReading (ofWords text words) := by
  refine .bind (readHeader_fails text [] words) fun (collectors, rest) => ?_
  refine .bind (.mapM (readBodyWord_fails text) _) fun body => ?_
  refine .bind (Token.checkBase_fails body) fun _ => ?_
  split
  · exact failsOnly_error trivial
  · exact failsOnly_ok _

end Clause

namespace Pattern

theorem ofSegments_fails (text : String) (first : List String) (others : List (List String)) :
    FailsOnly Fault.OfReading (ofSegments text first others) := by
  induction others generalizing text first with
  | nil => exact .bind (Clause.ofWords_fails text first) fun _ => failsOnly_ok _
  | cons next others ih =>
    rw [ofSegments]
    split
    · exact failsOnly_error trivial
    · refine .bind (ih _ _) fun veto => ?_
      exact .bind (Clause.ofWords_fails text first) fun _ => failsOnly_ok _

theorem parse_fails (text : String) : FailsOnly Fault.OfReading (parse text) :=
  ofSegments_fails text _ _

end Pattern

theorem Groups.split_fails (text : String) : FailsOnly Fault.OfReading (split text) := by
  unfold split
  split
  · exact failsOnly_error trivial
  · split
    · exact failsOnly_error trivial
    · exact failsOnly_ok _

theorem MixturePattern.parse_fails (text : String) : FailsOnly Fault.OfReading (parse text) := by
  refine .bind (Groups.split_fails text) fun texts => ?_
  exact .bind (.mapM Pattern.parse_fails texts) fun _ => failsOnly_ok _

theorem Rule.splitArrow_fails (text : String) : FailsOnly Fault.OfReading (splitArrow text) := by
  unfold splitArrow
  split
  · exact failsOnly_error trivial
  · split
    · exact failsOnly_error trivial
    · exact failsOnly_ok _

namespace ComponentRule

theorem of?_fails (lhs : Pattern) (rhs : Template) :
    FailsOnly Fault.OfReading (of? lhs rhs) := by
  unfold of?
  split
  · exact failsOnly_ok _
  · exact failsOnly_error trivial

theorem parse_fails (text : String) : FailsOnly Fault.OfReading (parse text) := by
  refine .bind (Rule.splitArrow_fails text) fun (lhs, rhs) => ?_
  refine .bind (Pattern.parse_fails lhs) fun pattern => ?_
  exact .bind (Template.parse_fails rhs) fun template => of?_fails pattern template

end ComponentRule

namespace MixtureRule

theorem of?_fails (reactants : MixturePattern) (products : List Template) :
    FailsOnly Fault.OfReading (of? reactants products) := by
  unfold of?
  split
  · exact failsOnly_ok _
  · unfold unsupplied
    split
    · exact failsOnly_error trivial
    · exact failsOnly_error trivial

theorem parse_fails (text : String) : FailsOnly Fault.OfReading (parse text) := by
  refine .bind (Rule.splitArrow_fails text) fun (lhs, rhs) => ?_
  refine .bind (Groups.split_fails rhs) fun texts => ?_
  refine .bind (.mapM Template.parse_fails texts) fun products => ?_
  exact .bind (MixturePattern.parse_fails lhs) fun reactants => of?_fails reactants products

end MixtureRule

theorem Rule.parse_fails (text : String) : FailsOnly Fault.OfReading (parse text) := by
  refine .bind (splitArrow_fails text) fun (lhs, _) => ?_
  dsimp only
  split
  · exact .bind (MixtureRule.parse_fails text) fun _ => failsOnly_ok _
  · exact .bind (ComponentRule.parse_fails text) fun _ => failsOnly_ok _

namespace ConciseRule

theorem splitParts_fails (line : String) (lhs : List Char) :
    FailsOnly Fault.OfReading (splitParts line lhs) := by
  unfold splitParts
  dsimp only
  split
  · exact failsOnly_ok _
  · split
    · exact failsOnly_error trivial
    · exact failsOnly_ok _

theorem parse_fails (line : String) : FailsOnly Fault.OfReading (parse line) := by
  unfold parse
  split
  · exact failsOnly_error trivial
  · split
    · exact failsOnly_error trivial
    · refine .bind (splitParts_fails line _) fun (ordered, pieces) => ?_
      dsimp only
      split
      · exact failsOnly_ok _
      · exact failsOnly_error trivial

theorem expand_fails (r : ConciseRule) : FailsOnly Fault.OfReading r.expand :=
  .bind (.mapM Token.parse_fails _) fun _ => ComponentRule.parse_fails _

end ConciseRule

theorem TagAlias.parse_fails (text : String) : FailsOnly Fault.OfReading (parse text) := by
  unfold parse
  split
  · exact failsOnly_error trivial
  dsimp only
  split
  · exact failsOnly_error trivial
  split
  · exact failsOnly_error trivial
  · exact failsOnly_ok _

namespace Definition

theorem parse_fails (line : String) : FailsOnly Fault.OfReading (parse line) := by
  unfold parse
  dsimp only
  split
  · exact .map (Rule.parse_fails line) _
  · split
    · refine .bind (ConciseRule.parse_fails line) fun concise => ?_
      exact .bind concise.expand_fails fun _ => failsOnly_ok _
    · split
      · exact .map (TagAlias.parse_fails line) _
      · exact failsOnly_error trivial

theorem ofLine?_fails (raw : List Char) : FailsOnly Fault.OfReading (ofLine? raw) := by
  unfold ofLine?
  split
  · exact failsOnly_ok _
  · exact .map (parse_fails _) _

end Definition

end Simmer
