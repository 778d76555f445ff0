import Simmer.Bindings
import Simmer.Proofs.Roster
import Simmer.Token.Basic

/-!
Bindings as rosters. Binding a variable is absorbing a roster of one entry that agrees, and
the name of a variable tells its class.
-/
namespace Simmer

namespace Roster

variable {α : Type}

theorem agrees_empty [DecidableEq α] (r : Roster α) : r.agrees empty = true := rfl

theorem absorb_empty (r : Roster α) : r.absorb empty = r :=
  eq_of_entries_eq (List.append_nil r.entries)

end Roster

namespace Bindings

/-- Binding a variable is absorbing the one entry for it, if that agrees. -/
theorem bind?_eq_absorb (b : Bindings) (name value : String) :
    b.bind? name value =
      if b.agrees (.one name (.single value)) then some (b.absorb (.one name (.single value)))
      else none := by
  cases hget : b.get? name with
  | none =>
    have hnew : name ∉ b.names := by
      rw [← Roster.contains_eq_false_iff, Roster.contains, hget]
      rfl
    have hlacks : b.contains name = false := Roster.contains_eq_false_iff.mpr hnew
    have hagrees : b.agrees (.one name (.single value)) = true := by
      simp [Roster.agrees, Roster.one, hget]
    have hinsert : b.insert name (.single value) = b.absorb (.one name (.single value)) := by
      apply Roster.eq_of_entries_eq
      rw [Roster.entries_insert_of_new _ hnew]
      simp [Roster.absorb, Roster.one, hlacks]
    simp [bind?, hget, hagrees, hinsert]
  | some bound =>
    have hholds : b.contains name = true := by simp [Roster.contains, hget]
    have hagrees : b.agrees (.one name (.single value)) = decide (bound = .single value) := by
      simp [Roster.agrees, Roster.one, hget]
    have habsorb : b.absorb (.one name (.single value)) = b := by
      apply Roster.eq_of_entries_eq
      simp [Roster.absorb, Roster.one, hholds]
    simp [bind?, hget, hagrees, habsorb]

end Bindings

namespace Token

/-- Variables of one name are of one class. -/
theorem class_eq_of_name_eq {cls cls' : VariableClass} {digits digits' : String}
    {q q' : Option Condition} (h : (var cls digits q).name = (var cls' digits' q').name) :
    cls = cls' := by
  have hletters := congrArg (fun s => s.toList.head?) h
  simp only [name, String.toList_append, String.toList_singleton, List.singleton_append,
    List.head?_cons, Option.some.injEq] at hletters
  cases cls <;> cases cls' <;> simp_all [VariableClass.letter]

/-- A collector and a variable that is none have different names. -/
theorem isCollector_eq_of_name_eq {t u : Token} (ht : t.isVariable = true)
    (hu : u.isVariable = true) (h : t.name = u.name) : t.isCollector = u.isCollector := by
  cases t with
  | constant name => simp [isVariable] at ht
  | var cls digits q =>
    cases u with
    | constant name => simp [isVariable] at hu
    | var cls' digits' q' => rw [isCollector, isCollector, class?, class?, class_eq_of_name_eq h]

end Token

end Simmer
