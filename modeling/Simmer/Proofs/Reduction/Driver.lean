import Simmer.Proofs.Outcome
import Simmer.Proofs.Reduction.Plain

/-!
The bounded driver, one part after the other. A step keeps the value, goes on with a new state,
or diverges where the state comes back; where rules always apply, every part of the driver ends
well or diverges, and a value that no rule changes comes back from it.
-/
namespace Simmer.Rewriting

variable {α κ : Type}

/-- The outcome is the fault for a reduction that does not end within the limit. -/
def Diverges {β : Type} (limit : Nat) (outcome : Except Fault β) : Prop :=
  ∃ rule state, outcome = .error (.diverging rule state limit)

theorem diverges_diverge {β : Type} (r : Rewriting α κ) (limit : Nat) (rule : Option Rule)
    (state : α) : Diverges limit (r.diverge limit rule state : Run β).outcome :=
  ⟨_, _, rfl⟩

theorem Diverges.ne_ok {β : Type} {limit : Nat} {outcome : Except Fault β} {b : β}
    (h : Diverges limit outcome) : outcome ≠ .ok b := by
  obtain ⟨rule, state, rfl⟩ := h
  intro hok
  cases hok

variable {r : Rewriting α κ} {limit : Nat} {rule : Rule} {rules : List Rule} {x y v : α}
variable [BEq κ] [Hashable κ] [LawfulBEq κ]

section step

variable {moved : Bool} {seen : Std.HashSet κ} {again : α → Run (α × Bool)}

theorem step_of_still (happly : r.Applies rule x y) (hkey : r.key y = r.key x) :
    (r.step limit rule moved seen x again).outcome = .ok (x, moved) := by
  rw [step, Run.outcome_bind, show (r.apply rule x).outcome = .ok y from happly]
  simp [Except.bind, hkey]

theorem step_of_new (happly : r.Applies rule x y) (hkey : r.key y ≠ r.key x)
    (hnew : r.key x ∉ seen) :
    (r.step limit rule moved seen x again).outcome = (again y).outcome := by
  rw [step, Run.outcome_bind, show (r.apply rule x).outcome = .ok y from happly]
  simp [Except.bind, hkey, hnew]

theorem step_of_seen (happly : r.Applies rule x y) (hkey : r.key y ≠ r.key x)
    (hseen : r.key x ∈ seen) : Diverges limit (r.step limit rule moved seen x again).outcome := by
  rw [step, Run.outcome_bind, show (r.apply rule x).outcome = .ok y from happly]
  simp only [Except.bind, beq_iff_eq, hkey, if_false, Std.HashSet.contains_iff_mem, hseen,
    if_true]
  exact diverges_diverge r limit (some rule) y

/-- A step succeeds where the value stays, or is a new state and the rest succeeds. -/
theorem step_eq_ok_iff {result : α × Bool} :
    (r.step limit rule moved seen x again).outcome = .ok result ↔
      ∃ next, r.Applies rule x next ∧
        (r.key next = r.key x ∧ result = (x, moved) ∨
          r.key next ≠ r.key x ∧ r.key x ∉ seen ∧ (again next).outcome = .ok result) := by
  constructor
  · intro h
    have hbind := h
    rw [step, Run.outcome_bind] at hbind
    obtain ⟨next, hnext, -⟩ := Outcome.bind_eq_ok_iff.mp hbind
    refine ⟨next, hnext, ?_⟩
    by_cases hkey : r.key next = r.key x
    · rw [step_of_still hnext hkey] at h
      exact Or.inl ⟨hkey, (Except.ok.inj h).symm⟩
    · by_cases hseen : r.key x ∈ seen
      · exact absurd h (step_of_seen hnext hkey hseen).ne_ok
      · rw [step_of_new hnext hkey hseen] at h
        exact Or.inr ⟨hkey, hseen, h⟩
  · intro h
    obtain ⟨next, hnext, ⟨hkey, rfl⟩ | ⟨hkey, hnew, hagain⟩⟩ := h
    · exact step_of_still hnext hkey
    · rw [step_of_new hnext hkey hnew, hagain]

theorem step_ok_or_diverges (htotal : ∃ next, r.Applies rule x next)
    (hagain : ∀ next, (∃ result, (again next).outcome = .ok result) ∨
      Diverges limit (again next).outcome) :
    (∃ result, (r.step limit rule moved seen x again).outcome = .ok result) ∨
      Diverges limit (r.step limit rule moved seen x again).outcome := by
  obtain ⟨next, hnext⟩ := htotal
  by_cases hkey : r.key next = r.key x
  · exact Or.inl ⟨_, step_of_still hnext hkey⟩
  · by_cases hseen : r.key x ∈ seen
    · exact Or.inr (step_of_seen hnext hkey hseen)
    · rw [step_of_new hnext hkey hseen]
      exact hagain next

end step

section settle

variable {spare : Nat} {moved : Bool} {seen : Std.HashSet κ}

theorem settle_ok_or_diverges (htotal : ∀ x, ∃ next, r.Applies rule x next) :
    (∃ result, (r.settle limit rule spare moved seen x).outcome = .ok result) ∨
      Diverges limit (r.settle limit rule spare moved seen x).outcome := by
  induction spare generalizing x moved seen with
  | zero =>
    exact step_ok_or_diverges (htotal x) fun next =>
      Or.inr (diverges_diverge r limit (some rule) next)
  | succ spare ih => exact step_ok_or_diverges (htotal x) fun next => ih

end settle

section pass

omit [LawfulBEq κ] in
/-- A pass settles its first rule and goes on with the others; of the rules that changed
something, it names the last. -/
theorem pass_cons {z : α} {moved : Bool} {later : Option Rule}
    (hsettle : (r.settle limit rule (limit - 1) false ∅ x).outcome = .ok (y, moved))
    (hpass : (r.pass limit rules y).outcome = .ok (z, later)) :
    (r.pass limit (rule :: rules) x).outcome =
      .ok (z, later <|> if moved then some rule else none) := by
  rw [pass, Run.outcome_bind, hsettle]
  simp only [Except.bind, Run.outcome_bind, hpass]
  rfl

theorem pass_ok_or_diverges
    (htotal : ∀ rule ∈ rules, ∀ x, ∃ next, r.Applies rule x next) :
    (∃ result, (r.pass limit rules x).outcome = .ok result) ∨
      Diverges limit (r.pass limit rules x).outcome := by
  induction rules generalizing x with
  | nil => exact Or.inl ⟨(x, none), rfl⟩
  | cons rule rules ih =>
    obtain ⟨hfirst, hrest⟩ := List.forall_mem_cons.mp htotal
    rcases settle_ok_or_diverges hfirst with ⟨⟨y, moved⟩, hsettle⟩ | ⟨blamed, state, hsettle⟩
    · rcases ih hrest with ⟨⟨z, later⟩, hpass⟩ | ⟨blamed, state, hpass⟩
      · exact Or.inl ⟨_, pass_cons hsettle hpass⟩
      · rw [pass, Run.outcome_bind, hsettle]
        simp only [Except.bind, Run.outcome_bind, hpass]
        exact Or.inr ⟨blamed, state, rfl⟩
    · rw [pass, Run.outcome_bind, hsettle]
      exact Or.inr ⟨blamed, state, rfl⟩

end pass

section passes

variable {done : Nat} {seen : Std.HashSet κ} {last : Option Rule} {spare : Nat}

omit [LawfulBEq κ] in
theorem round_of_seen {again : Rule → α → Run α} (hseen : r.key x ∈ seen) :
    Diverges limit (r.round limit rules done seen last x again).outcome := by
  rw [round, if_pos (Std.HashSet.contains_iff_mem.mpr hseen)]
  exact diverges_diverge r limit last x

omit [LawfulBEq κ] in
theorem outcome_round {again : Rule → α → Run α} (hnew : r.key x ∉ seen) :
    (r.round limit rules done seen last x again).outcome =
      (r.pass limit rules x).outcome.bind fun (next, changed) =>
        match changed with
        | none => .ok next
        | some rule => (again rule next).outcome := by
  rw [round, if_neg (fun h => hnew (Std.HashSet.contains_iff_mem.mp h)), Run.outcome_bind]
  congr 1
  funext result
  obtain ⟨next, changed⟩ := result
  cases changed with
  | none => simp only [Run.outcome_bind, Run.outcome_tell, Run.outcome_pure, Except.bind]
  | some rule => rfl

theorem round_ok_or_diverges {again : Rule → α → Run α}
    (htotal : ∀ rule ∈ rules, ∀ x, ∃ next, r.Applies rule x next)
    (hagain : ∀ rule next, (∃ v, (again rule next).outcome = .ok v) ∨
      Diverges limit (again rule next).outcome) :
    (∃ v, (r.round limit rules done seen last x again).outcome = .ok v) ∨
      Diverges limit (r.round limit rules done seen last x again).outcome := by
  by_cases hseen : r.key x ∈ seen
  · exact Or.inr (round_of_seen hseen)
  · rw [outcome_round hseen]
    rcases pass_ok_or_diverges htotal (x := x) with ⟨⟨next, changed⟩, hpass⟩ | hpass
    · rw [hpass]
      cases changed with
      | none => exact Or.inl ⟨next, rfl⟩
      | some rule => exact hagain rule next
    · obtain ⟨blamed, state, hfault⟩ := hpass
      rw [hfault]
      exact Or.inr ⟨blamed, state, rfl⟩

theorem passes_ok_or_diverges (htotal : ∀ rule ∈ rules, ∀ x, ∃ next, r.Applies rule x next) :
    (∃ v, (r.passes limit rules spare done seen last x).outcome = .ok v) ∨
      Diverges limit (r.passes limit rules spare done seen last x).outcome := by
  induction spare generalizing x done seen last with
  | zero =>
    exact round_ok_or_diverges htotal fun rule next =>
      Or.inr (diverges_diverge r limit (some rule) next)
  | succ spare ih => exact round_ok_or_diverges htotal fun rule next => ih

end passes

section drive

theorem settle_of_still {spare : Nat} {moved : Bool} {seen : Std.HashSet κ}
    (h : r.Settles rule x 0 x) :
    (r.settle limit rule spare moved seen x).outcome = .ok (x, moved) := by
  obtain ⟨next, happly, hkey⟩ := h.exists_applies
  cases spare with
  | zero => exact step_of_still happly (hkey.mp rfl)
  | succ spare => exact step_of_still happly (hkey.mp rfl)

theorem pass_of_settled (h : ∀ rule ∈ rules, r.Settles rule x 0 x) :
    (r.pass limit rules x).outcome = .ok (x, none) := by
  induction rules with
  | nil => rfl
  | cons rule rules ih =>
    obtain ⟨hfirst, hrest⟩ := List.forall_mem_cons.mp h
    exact pass_cons (settle_of_still hfirst) (ih hrest)

theorem passes_of_settled {spare done : Nat} {seen : Std.HashSet κ} {last : Option Rule}
    (hnew : r.key x ∉ seen) (h : ∀ rule ∈ rules, r.Settles rule x 0 x) :
    (r.passes limit rules spare done seen last x).outcome = .ok x := by
  have hround : ∀ (again : Rule → α → Run α),
      (r.round limit rules done seen last x again).outcome = .ok x := by
    intro again
    rw [outcome_round hnew, pass_of_settled h]
    rfl
  cases spare with
  | zero => exact hround _
  | succ spare => exact hround _

/-- A value that no rule changes comes back, whatever its key and the limit. -/
theorem drive_of_settled (h : ∀ rule ∈ rules, r.Settles rule x 0 x) :
    (r.drive limit rules x).outcome = .ok x :=
  passes_of_settled (by simp) h

/-- A value that one change of a rule settles. -/
theorem settle_of_one_change {spare : Nat} {moved : Bool} {seen : Std.HashSet κ}
    (happly : r.Applies rule x y) (hkey : r.key y ≠ r.key x) (hnew : r.key x ∉ seen)
    (hstill : r.Settles rule y 0 y) (hspare : 0 < spare) :
    (r.settle limit rule spare moved seen x).outcome = .ok (y, true) := by
  cases spare with
  | zero => omega
  | succ spare => rw [settle, step_of_new happly hkey hnew, settle_of_still hstill]

theorem drive_ok_or_diverges (htotal : ∀ rule ∈ rules, ∀ x, ∃ next, r.Applies rule x next) :
    (∃ v, (r.drive limit rules x).outcome = .ok v) ∨
      Diverges limit (r.drive limit rules x).outcome :=
  passes_ok_or_diverges htotal

variable [LawfulHashable κ]

/-- A value that one pass turns into one that no rule changes. -/
theorem drive_of_one_pass (hpass : (r.pass limit rules x).outcome = .ok (y, some rule))
    (hkey : r.key y ≠ r.key x) (hsettled : ∀ rule ∈ rules, r.Settles rule y 0 y)
    (hlimit : 1 < limit) : (r.drive limit rules x).outcome = .ok y := by
  have hfirst : r.key x ∉ (∅ : Std.HashSet κ) := by simp
  have hsecond : r.key y ∉ (∅ : Std.HashSet κ).insert (r.key x) := by
    simpa using Ne.symm hkey
  obtain ⟨spare, rfl⟩ : ∃ spare, limit = spare + 2 := ⟨limit - 2, by omega⟩
  rw [drive, show spare + 2 - 1 = spare + 1 by omega, passes, outcome_round hfirst, hpass]
  exact passes_of_settled hsecond hsettled

/-- A value that the first rules leave alone and the last one changes once, for good. -/
theorem drive_of_last_change (hstill : ∀ rule ∈ rules, r.Settles rule x 0 x)
    (happly : r.Applies rule x y) (hkey : r.key y ≠ r.key x)
    (hsettled : ∀ rule' ∈ rules ++ [rule], r.Settles rule' y 0 y) (hlimit : 1 < limit) :
    (r.drive limit (rules ++ [rule]) x).outcome = .ok y := by
  have hchange : (r.settle limit rule (limit - 1) false ∅ x).outcome = .ok (y, true) :=
    settle_of_one_change happly hkey (by simp) (hsettled rule (by simp)) (by omega)
  have hpass : (r.pass limit (rules ++ [rule]) x).outcome = .ok (y, some rule) := by
    clear hsettled
    induction rules with
    | nil =>
      have hend : (r.pass limit [] y).outcome = .ok (y, none) := rfl
      exact pass_cons hchange hend
    | cons first rules ih =>
      obtain ⟨hfirst, hrest⟩ := List.forall_mem_cons.mp hstill
      exact pass_cons (settle_of_still hfirst) (ih hrest)
  exact drive_of_one_pass hpass hkey hsettled hlimit

end drive

end Simmer.Rewriting
