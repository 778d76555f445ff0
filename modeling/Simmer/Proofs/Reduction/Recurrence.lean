import Simmer.Proofs.Reduction.Driver
import Mathlib.Data.List.Nodup

/-!
Reduction told with the values that it goes through, and the driver against it. The driver
refuses a run that goes over its limit and a state that comes back; it refuses nothing else. A
plain reduction is determined by its first value, so it never comes back to a value. Where
different values are different states, the memory of states thus stops no run that would have
ended; where they are not, a value may come back as a state and still be on its way to its end.
-/
namespace Simmer.Rewriting

variable {α κ : Type}

/-- A rule settles a value, and changes those of `way` before. -/
inductive SettlesThrough (r : Rewriting α κ) (rule : Rule) : α → List α → α → Prop
  | still {x y : α} : r.Applies rule x y → r.key y = r.key x → SettlesThrough r rule x [] x
  | moves {x y z : α} {way : List α} : r.Applies rule x y → r.key y ≠ r.key x →
      SettlesThrough r rule y way z → SettlesThrough r rule x (x :: way) z

/-- Every rule settles the value in turn, and each has a way of its own. -/
inductive PassesThrough (r : Rewriting α κ) : List Rule → α → List (List α) → α → Prop
  | nil (x : α) : PassesThrough r [] x [] x
  | cons {rule : Rule} {rules : List Rule} {x y z : α} {way : List α} {ways : List (List α)} :
      r.SettlesThrough rule x way y → PassesThrough r rules y ways z →
        PassesThrough r (rule :: rules) x (way :: ways) z

/-- The value with which a pass starts, and the ways of the rules in it. -/
structure Stage (α : Type) where
  start : α
  ways : List (List α)

/-- How often each rule changes the value. -/
def Stage.counts (stage : Stage α) : List Nat :=
  stage.ways.map List.length

/-- Passes follow each other up to the first quiet one. -/
inductive ReducesThrough (r : Rewriting α κ) (rules : List Rule) : α → List (Stage α) → α → Prop
  | last {x y : α} {ways : List (List α)} : r.PassesThrough rules x ways y →
      Quiet (ways.map List.length) → ReducesThrough r rules x [⟨x, ways⟩] y
  | more {x y z : α} {ways : List (List α)} {stages : List (Stage α)} :
      r.PassesThrough rules x ways y → ¬ Quiet (ways.map List.length) →
        ReducesThrough r rules y stages z → ReducesThrough r rules x (⟨x, ways⟩ :: stages) z

/-- No rule meets a state twice on its way, and no two passes start with one state. -/
structure NeverReturns (r : Rewriting α κ) (stages : List (Stage α)) : Prop where
  starts_distinct : (stages.map fun stage => r.key stage.start).Nodup
  ways_distinct : ∀ stage ∈ stages, ∀ way ∈ stage.ways, (way.map r.key).Nodup

variable {r : Rewriting α κ} {limit : Nat} {rule : Rule} {rules : List Rule} {x y z v : α}

theorem settles_iff_through {n : Nat} :
    r.Settles rule x n y ↔ ∃ way, r.SettlesThrough rule x way y ∧ way.length = n := by
  constructor
  · intro h
    induction h with
    | still happly hkey => exact ⟨[], .still happly hkey, rfl⟩
    | moves happly hne _ ih =>
      obtain ⟨way, hway, rfl⟩ := ih
      exact ⟨_, .moves happly hne hway, rfl⟩
  · intro h
    obtain ⟨way, hway, rfl⟩ := h
    induction hway with
    | still happly hkey => exact .still happly hkey
    | moves happly hne _ ih => exact .moves happly hne ih

theorem passes_iff_through {counts : List Nat} :
    r.Passes rules x counts y ↔
      ∃ ways, r.PassesThrough rules x ways y ∧ ways.map List.length = counts := by
  constructor
  · intro h
    induction h with
    | nil x => exact ⟨[], .nil x, rfl⟩
    | cons hsettles _ ih =>
      obtain ⟨way, hway, rfl⟩ := settles_iff_through.mp hsettles
      obtain ⟨ways, hways, rfl⟩ := ih
      exact ⟨way :: ways, .cons hway hways, rfl⟩
  · intro h
    obtain ⟨ways, hways, rfl⟩ := h
    induction hways with
    | nil x => exact .nil x
    | cons hway _ ih => exact .cons (settles_iff_through.mpr ⟨_, hway, rfl⟩) ih

/-- To tell the values that a reduction goes through is no restriction. -/
theorem reduces_iff_through {log : List (List Nat)} :
    r.Reduces rules x log y ↔
      ∃ stages, r.ReducesThrough rules x stages y ∧ stages.map Stage.counts = log := by
  constructor
  · intro h
    induction h with
    | last hpass hquiet =>
      obtain ⟨ways, hways, rfl⟩ := passes_iff_through.mp hpass
      exact ⟨_, .last hways hquiet, rfl⟩
    | more hpass hloud _ ih =>
      obtain ⟨ways, hways, rfl⟩ := passes_iff_through.mp hpass
      obtain ⟨stages, hstages, rfl⟩ := ih
      exact ⟨_, .more hways hloud hstages, rfl⟩
  · intro h
    obtain ⟨stages, hstages, rfl⟩ := h
    induction hstages with
    | last hways hquiet => exact .last (passes_iff_through.mpr ⟨_, hways, rfl⟩) hquiet
    | more hways hloud _ ih => exact .more (passes_iff_through.mpr ⟨_, hways, rfl⟩) hloud ih

theorem SettlesThrough.unique {way way' : List α} (hy : r.SettlesThrough rule x way y)
    (hz : r.SettlesThrough rule x way' z) : way = way' ∧ y = z := by
  induction hy generalizing way' with
  | still happly hkey =>
    cases hz with
    | still => exact ⟨rfl, rfl⟩
    | moves happly' hne _ => exact absurd (happly.unique happly' ▸ hkey) hne
  | moves happly hne _ ih =>
    cases hz with
    | still happly' hkey => exact absurd (happly'.unique happly ▸ hkey) hne
    | moves happly' _ hrest =>
      obtain rfl := happly.unique happly'
      obtain ⟨rfl, rfl⟩ := ih hrest
      exact ⟨rfl, rfl⟩

theorem PassesThrough.unique {ways ways' : List (List α)} (hy : r.PassesThrough rules x ways y)
    (hz : r.PassesThrough rules x ways' z) : ways = ways' ∧ y = z := by
  induction hy generalizing ways' with
  | nil x =>
    cases hz
    exact ⟨rfl, rfl⟩
  | cons hway _ ih =>
    cases hz with
    | cons hway' hrest =>
      obtain ⟨rfl, rfl⟩ := hway.unique hway'
      obtain ⟨rfl, rfl⟩ := ih hrest
      exact ⟨rfl, rfl⟩

theorem ReducesThrough.unique {stages stages' : List (Stage α)}
    (hy : r.ReducesThrough rules x stages y) (hz : r.ReducesThrough rules x stages' z) :
    stages = stages' ∧ y = z := by
  induction hy generalizing stages' with
  | last hways hquiet =>
    cases hz with
    | last hways' _ =>
      obtain ⟨rfl, rfl⟩ := hways.unique hways'
      exact ⟨rfl, rfl⟩
    | more hways' hloud _ => exact absurd ((hways.unique hways').1 ▸ hquiet) hloud
  | more hways hloud _ ih =>
    cases hz with
    | last hways' hquiet => exact absurd ((hways'.unique hways).1 ▸ hquiet) hloud
    | more hways' _ hrest =>
      obtain ⟨rfl, rfl⟩ := hways.unique hways'
      obtain ⟨rfl, rfl⟩ := ih hrest
      exact ⟨rfl, rfl⟩

/-- A reduction is determined by the value it starts with. -/
theorem Reduces.unique {log log' : List (List Nat)} (hy : r.Reduces rules x log y)
    (hz : r.Reduces rules x log' z) : log = log' ∧ y = z := by
  obtain ⟨stages, hstages, rfl⟩ := reduces_iff_through.mp hy
  obtain ⟨stages', hstages', rfl⟩ := reduces_iff_through.mp hz
  obtain ⟨rfl, rfl⟩ := hstages.unique hstages'
  exact ⟨rfl, rfl⟩

section injective

/-- From any value on its way, a rule goes the rest of the same way. -/
theorem SettlesThrough.exists_rest {way : List α} (h : r.SettlesThrough rule x way y)
    (hz : z ∈ way) : ∃ rest, r.SettlesThrough rule z rest y ∧ rest.length ≤ way.length := by
  induction h with
  | still => cases hz
  | moves happly hne hway ih =>
    rcases List.mem_cons.mp hz with rfl | hz
    · exact ⟨_, .moves happly hne hway, Nat.le_refl _⟩
    · obtain ⟨rest, hrest, hle⟩ := ih hz
      exact ⟨rest, hrest, Nat.le_succ_of_le hle⟩

/-- A way that came back to a value would be longer than itself. -/
theorem SettlesThrough.nodup {way : List α} (h : r.SettlesThrough rule x way y) : way.Nodup := by
  induction h with
  | still => exact List.nodup_nil
  | @moves x next y way happly hne hway ih =>
    refine List.nodup_cons.mpr ⟨?_, ih⟩
    intro hx
    -- What follows the second visit would be the whole way again.
    obtain ⟨rest, hrest, hle⟩ := hway.exists_rest hx
    obtain ⟨rfl, -⟩ := hrest.unique (.moves happly hne hway)
    rw [List.length_cons] at hle
    omega

theorem PassesThrough.nodup {ways : List (List α)} (h : r.PassesThrough rules x ways y) :
    ∀ way ∈ ways, way.Nodup := by
  induction h with
  | nil => simp
  | cons hway _ ih => exact List.forall_mem_cons.mpr ⟨hway.nodup, ih⟩

/-- From the start of any stage, a reduction goes through the stages from there on. -/
theorem ReducesThrough.exists_rest {stages : List (Stage α)}
    (h : r.ReducesThrough rules x stages v) (hz : z ∈ stages.map Stage.start) :
    ∃ rest, r.ReducesThrough rules z rest v ∧ rest.length ≤ stages.length := by
  induction h with
  | last hways hquiet =>
    obtain rfl := List.mem_singleton.mp hz
    exact ⟨_, .last hways hquiet, Nat.le_refl _⟩
  | more hways hloud hstages ih =>
    rcases List.mem_cons.mp hz with rfl | hz
    · exact ⟨_, .more hways hloud hstages, Nat.le_refl _⟩
    · obtain ⟨rest, hrest, hle⟩ := ih hz
      exact ⟨rest, hrest, Nat.le_succ_of_le hle⟩

theorem ReducesThrough.nodup {stages : List (Stage α)}
    (h : r.ReducesThrough rules x stages v) : (stages.map Stage.start).Nodup := by
  induction h with
  | last => exact List.nodup_singleton _
  | @more x next v ways stages hways hloud hstages ih =>
    refine List.nodup_cons.mpr ⟨?_, ih⟩
    intro hx
    obtain ⟨rest, hrest, hle⟩ := hstages.exists_rest hx
    obtain ⟨rfl, -⟩ := hrest.unique (.more hways hloud hstages)
    rw [List.length_cons] at hle
    omega

theorem ReducesThrough.ways_nodup {stages : List (Stage α)}
    (h : r.ReducesThrough rules x stages v) :
    ∀ stage ∈ stages, ∀ way ∈ stage.ways, way.Nodup := by
  induction h with
  | last hways _ => exact List.forall_mem_singleton.mpr hways.nodup
  | more hways _ _ ih => exact List.forall_mem_cons.mpr ⟨hways.nodup, ih⟩

/-- Where different values are different states, no reduction returns. -/
theorem ReducesThrough.neverReturns {stages : List (Stage α)}
    (h : r.ReducesThrough rules x stages v) (hkeys : Function.Injective r.key) :
    r.NeverReturns stages := by
  refine ⟨?_, fun stage hstage way hway => (h.ways_nodup stage hstage way hway).map hkeys⟩
  have hstarts := h.nodup.map hkeys
  rwa [List.map_map] at hstarts

end injective

variable [BEq κ] [Hashable κ]

/-- No two of the values are one state, and none of them has been seen. -/
def Fresh (r : Rewriting α κ) (seen : Std.HashSet κ) (values : List α) : Prop :=
  (values.map r.key).Nodup ∧ ∀ value ∈ values, r.key value ∉ seen

theorem fresh_nil (seen : Std.HashSet κ) : r.Fresh seen [] := by
  simp [Fresh]

theorem fresh_empty {values : List α} : r.Fresh ∅ values ↔ (values.map r.key).Nodup := by
  simp [Fresh]

/-- The first value has to be new, and the others stay so when it has been seen as well. -/
theorem fresh_cons [LawfulBEq κ] [LawfulHashable κ] {seen : Std.HashSet κ} {values : List α} :
    r.Fresh seen (x :: values) ↔
      r.key x ∉ seen ∧ r.Fresh (seen.insert (r.key x)) values := by
  simp only [Fresh, List.map_cons, List.nodup_cons, List.mem_map, List.forall_mem_cons,
    Std.HashSet.mem_insert, beq_iff_eq, not_or, not_exists, not_and]
  constructor
  · intro h
    obtain ⟨⟨hfirst, hdistinct⟩, hnew, hrest⟩ := h
    exact ⟨hnew, hdistinct, fun value hvalue =>
      ⟨fun hkey => hfirst value hvalue hkey.symm, hrest value hvalue⟩⟩
  · intro h
    obtain ⟨hnew, hdistinct, hrest⟩ := h
    exact ⟨⟨fun value hvalue hkey => (hrest value hvalue).1 hkey.symm, hdistinct⟩, hnew,
      fun value hvalue => (hrest value hvalue).2⟩

/-- The way of every rule is short enough for the limit and meets no state twice. -/
def Clear (r : Rewriting α κ) (limit : Nat) (ways : List (List α)) : Prop :=
  ∀ way ∈ ways, way.length < max limit 1 ∧ (way.map r.key).Nodup

variable [LawfulBEq κ] [LawfulHashable κ]

/-- A rule settles a value in the driver when its way is within what is left of the limit and
fresh. Only the values that it changes are looked up, not the one that it ends with. -/
theorem settle_eq_ok_iff {spare : Nat} {moved : Bool} {seen : Std.HashSet κ}
    {result : α × Bool} :
    (r.settle limit rule spare moved seen x).outcome = .ok result ↔
      ∃ way, r.SettlesThrough rule x way result.1 ∧ way.length ≤ spare ∧ r.Fresh seen way ∧
        result.2 = (moved || way.length != 0) := by
  induction spare generalizing x moved seen with
  | zero =>
    rw [settle, step_eq_ok_iff]
    constructor
    · intro h
      obtain ⟨next, hnext, ⟨hkey, rfl⟩ | ⟨-, -, hagain⟩⟩ := h
      · exact ⟨[], .still hnext hkey, Nat.le_refl 0, fresh_nil seen, by simp⟩
      · exact absurd hagain (diverges_diverge r limit (some rule) next).ne_ok
    · intro h
      obtain ⟨result, changed⟩ := result
      obtain ⟨way, hway, hlength, -, rfl⟩ := h
      cases hway with
      | still happly hkey => exact ⟨_, happly, Or.inl ⟨hkey, by simp⟩⟩
      | moves => simp at hlength
  | succ spare ih =>
    rw [settle, step_eq_ok_iff]
    constructor
    · intro h
      obtain ⟨next, hnext, ⟨hkey, rfl⟩ | ⟨hkey, hnew, hagain⟩⟩ := h
      · exact ⟨[], .still hnext hkey, Nat.zero_le _, fresh_nil seen, by simp⟩
      · obtain ⟨way, hway, hlength, hfresh, hmoved⟩ := ih.mp hagain
        exact ⟨x :: way, .moves hnext hkey hway, Nat.succ_le_succ hlength,
          fresh_cons.mpr ⟨hnew, hfresh⟩, by simpa using hmoved⟩
    · intro h
      obtain ⟨result, changed⟩ := result
      obtain ⟨way, hway, hlength, hfresh, rfl⟩ := h
      cases hway with
      | still happly hkey => exact ⟨_, happly, Or.inl ⟨hkey, by simp⟩⟩
      | moves happly hkey hrest =>
        obtain ⟨hnew, hothers⟩ := fresh_cons.mp hfresh
        refine ⟨_, happly, Or.inr ⟨hkey, hnew, ih.mpr ?_⟩⟩
        exact ⟨_, hrest, Nat.le_of_succ_le_succ hlength, hothers, by simp⟩

theorem passesThrough_of_pass {result : α × Option Rule}
    (h : (r.pass limit rules x).outcome = .ok result) :
    ∃ ways, r.PassesThrough rules x ways result.1 ∧ r.Clear limit ways ∧
      (result.2 = none ↔ Quiet (ways.map List.length)) := by
  induction rules generalizing x result with
  | nil =>
    obtain rfl := Except.ok.inj h
    exact ⟨[], .nil x, by simp [Clear], by simp [Quiet]⟩
  | cons rule rules ih =>
    rw [pass, Run.outcome_bind] at h
    obtain ⟨⟨y, moved⟩, hsettle, h⟩ := Outcome.bind_eq_ok_iff.mp h
    rw [Run.outcome_bind] at h
    obtain ⟨⟨z, later⟩, hpass, h⟩ := Outcome.bind_eq_ok_iff.mp h
    obtain rfl := Except.ok.inj h
    obtain ⟨way, hway, hlength, hfresh, hmoved⟩ := settle_eq_ok_iff.mp hsettle
    obtain ⟨ways, hways, hclear, hquiet⟩ := ih hpass
    refine ⟨way :: ways, .cons hway hways, ?_, ?_⟩
    · exact List.forall_mem_cons.mpr ⟨⟨by omega, fresh_empty.mp hfresh⟩, hclear⟩
    · rw [List.map_cons, quiet_cons, ← hquiet]
      simp only [Bool.false_or] at hmoved
      subst hmoved
      cases later with
      | none => simp
      | some rule => simp

theorem pass_of_passesThrough {ways : List (List α)} (h : r.PassesThrough rules x ways y)
    (hclear : r.Clear limit ways) :
    ∃ changed, (r.pass limit rules x).outcome = .ok (y, changed) ∧
      (changed = none ↔ Quiet (ways.map List.length)) := by
  induction h with
  | nil x => exact ⟨none, rfl, by simp [Quiet]⟩
  | @cons rule rules x y z way ways hway _ ih =>
    obtain ⟨⟨hlength, hdistinct⟩, hrest⟩ := List.forall_mem_cons.mp hclear
    obtain ⟨later, hpass, hquiet⟩ := ih hrest
    have hsettle : (r.settle limit rule (limit - 1) false ∅ x).outcome =
        .ok (y, way.length != 0) :=
      settle_eq_ok_iff.mpr ⟨way, hway, by omega, fresh_empty.mpr hdistinct, by simp⟩
    refine ⟨_, pass_cons hsettle hpass, ?_⟩
    rw [List.map_cons, quiet_cons, ← hquiet]
    cases later with
    | none => simp
    | some rule => simp

/-- A round succeeds where it starts with a new state and its pass is quiet, or the rest
succeeds. -/
theorem round_eq_ok_iff {done : Nat} {seen : Std.HashSet κ} {last : Option Rule}
    {again : Rule → α → Run α} {rest : α → Prop}
    (hrest : ∀ rule next, (again rule next).outcome = .ok v ↔ rest next) :
    (r.round limit rules done seen last x again).outcome = .ok v ↔
      r.key x ∉ seen ∧ ∃ ways next, r.PassesThrough rules x ways next ∧ r.Clear limit ways ∧
        (Quiet (ways.map List.length) ∧ next = v ∨
          ¬ Quiet (ways.map List.length) ∧ rest next) := by
  by_cases hseen : r.key x ∈ seen
  · exact iff_of_false (round_of_seen hseen).ne_ok fun h => h.1 hseen
  · rw [outcome_round hseen]
    constructor
    · intro h
      obtain ⟨⟨next, changed⟩, hpass, hnext⟩ := Outcome.bind_eq_ok_iff.mp h
      obtain ⟨ways, hways, hclear, hquiet⟩ := passesThrough_of_pass hpass
      refine ⟨hseen, ways, next, hways, hclear, ?_⟩
      cases changed with
      | none => exact Or.inl ⟨hquiet.mp rfl, Except.ok.inj hnext⟩
      | some rule =>
        exact Or.inr ⟨fun h => by simpa using hquiet.mpr h, (hrest rule next).mp hnext⟩
    · intro h
      obtain ⟨-, ways, next, hways, hclear, hend⟩ := h
      obtain ⟨changed, hpass, hquiet⟩ := pass_of_passesThrough hways hclear
      rw [hpass]
      cases changed with
      | none =>
        rcases hend with ⟨-, rfl⟩ | ⟨hloud, -⟩
        · rfl
        · exact absurd (hquiet.mp rfl) hloud
      | some rule =>
        rcases hend with ⟨hstill, -⟩ | ⟨-, hgoes⟩
        · exact absurd (hquiet.mpr hstill) (by simp)
        · exact (hrest rule next).mpr hgoes

theorem passes_eq_ok_iff {spare done : Nat} {seen : Std.HashSet κ} {last : Option Rule} :
    (r.passes limit rules spare done seen last x).outcome = .ok v ↔
      ∃ stages, r.ReducesThrough rules x stages v ∧ stages.length ≤ spare + 1 ∧
        r.Fresh seen (stages.map Stage.start) ∧ ∀ stage ∈ stages, r.Clear limit stage.ways := by
  induction spare generalizing x done seen last with
  | zero =>
    have hstop : ∀ rule next,
        (r.diverge limit (some rule) next : Run α).outcome = .ok v ↔ False := fun rule next =>
      iff_of_false (diverges_diverge r limit (some rule) next).ne_ok id
    rw [passes, round_eq_ok_iff hstop]
    constructor
    · intro h
      obtain ⟨hnew, ways, next, hways, hclear, ⟨hquiet, rfl⟩ | ⟨-, hfalse⟩⟩ := h
      · exact ⟨_, .last hways hquiet, Nat.le_refl 1, fresh_cons.mpr ⟨hnew, fresh_nil _⟩,
          List.forall_mem_singleton.mpr hclear⟩
      · exact absurd hfalse id
    · intro h
      obtain ⟨stages, hstages, hlength, hfresh, hclear⟩ := h
      cases hstages with
      | last hways hquiet =>
        exact ⟨(fresh_cons.mp hfresh).1, _, _, hways, hclear _ List.mem_cons_self,
          Or.inl ⟨hquiet, rfl⟩⟩
      | more _ _ hrest =>
        cases hrest with
        | last => simp at hlength
        | more => simp at hlength
  | succ spare ih =>
    have hagain : ∀ rule next,
        (r.passes limit rules spare (done + 1) (seen.insert (r.key x)) (some rule)
          next).outcome = .ok v ↔ _ := fun rule next => ih
    rw [passes, round_eq_ok_iff hagain]
    constructor
    · intro h
      obtain ⟨hnew, ways, next, hways, hclear, ⟨hquiet, rfl⟩ | ⟨hloud, hrest⟩⟩ := h
      · exact ⟨_, .last hways hquiet, by simp, fresh_cons.mpr ⟨hnew, fresh_nil _⟩,
          List.forall_mem_singleton.mpr hclear⟩
      · obtain ⟨stages, hstages, hlength, hfresh, hall⟩ := hrest
        exact ⟨_, .more hways hloud hstages, Nat.succ_le_succ hlength,
          fresh_cons.mpr ⟨hnew, hfresh⟩, List.forall_mem_cons.mpr ⟨hclear, hall⟩⟩
    · intro h
      obtain ⟨stages, hstages, hlength, hfresh, hclear⟩ := h
      cases hstages with
      | last hways hquiet =>
        exact ⟨(fresh_cons.mp hfresh).1, _, _, hways, hclear _ List.mem_cons_self,
          Or.inl ⟨hquiet, rfl⟩⟩
      | more hways hloud hrest =>
        obtain ⟨hnew, hothers⟩ := fresh_cons.mp hfresh
        obtain ⟨hfirst, hall⟩ := List.forall_mem_cons.mp hclear
        exact ⟨hnew, _, _, hways, hfirst,
          Or.inr ⟨hloud, _, hrest, Nat.le_of_succ_le_succ hlength, hothers, hall⟩⟩

/-- The driver finds what plain reduction reaches within the limit without a return. -/
theorem drive_eq_ok_iff_neverReturns :
    (r.drive limit rules x).outcome = .ok v ↔
      ∃ stages, r.ReducesThrough rules x stages v ∧ Within limit (stages.map Stage.counts) ∧
        r.NeverReturns stages := by
  have hclear : ∀ stages : List (Stage α),
      stages.length ≤ limit - 1 + 1 ∧ (stages.map fun stage => r.key stage.start).Nodup ∧
          (∀ stage ∈ stages, r.Clear limit stage.ways) ↔
        Within limit (stages.map Stage.counts) ∧ r.NeverReturns stages := by
    intro stages
    constructor
    · intro h
      obtain ⟨hlength, hstarts, hall⟩ := h
      refine ⟨⟨?_, ?_⟩, hstarts, fun stage hstage way hway => (hall stage hstage way hway).2⟩
      · rw [List.length_map]
        omega
      · intro counts hcounts n hn
        obtain ⟨stage, hstage, rfl⟩ := List.mem_map.mp hcounts
        obtain ⟨way, hway, rfl⟩ := List.mem_map.mp hn
        exact (hall stage hstage way hway).1
    · intro h
      obtain ⟨⟨hlength, hcounts⟩, hstarts, hways⟩ := h
      rw [List.length_map] at hlength
      refine ⟨by omega, hstarts, fun stage hstage way hway => ⟨?_, hways stage hstage way hway⟩⟩
      exact hcounts _ (List.mem_map_of_mem hstage) _ (List.mem_map_of_mem hway)
  rw [drive, passes_eq_ok_iff]
  simp only [fresh_empty, List.map_map, Function.comp_def, hclear]

/-- What the driver finds is reached by plain reduction, whatever the keys. -/
theorem reduces_of_drive (h : (r.drive limit rules x).outcome = .ok v) :
    ∃ log, r.Reduces rules x log v ∧ Within limit log := by
  obtain ⟨stages, hstages, hwithin, -⟩ := drive_eq_ok_iff_neverReturns.mp h
  exact ⟨_, reduces_iff_through.mpr ⟨stages, hstages, rfl⟩, hwithin⟩

/-- Where different values have different keys, the driver finds exactly what plain reduction
reaches within the limit. -/
theorem drive_eq_ok_iff (hkeys : Function.Injective r.key) :
    (r.drive limit rules x).outcome = .ok v ↔
      ∃ log, r.Reduces rules x log v ∧ Within limit log := by
  constructor
  · exact reduces_of_drive
  · intro h
    obtain ⟨log, hlog, hwithin⟩ := h
    obtain ⟨stages, hstages, rfl⟩ := reduces_iff_through.mp hlog
    exact drive_eq_ok_iff_neverReturns.mpr
      ⟨stages, hstages, hwithin, hstages.neverReturns hkeys⟩

theorem settles_of_settle {spare : Nat} {moved : Bool} {seen : Std.HashSet κ}
    {result : α × Bool} (h : (r.settle limit rule spare moved seen x).outcome = .ok result) :
    ∃ n, r.Settles rule x n result.1 := by
  obtain ⟨way, hway, -⟩ := settle_eq_ok_iff.mp h
  exact ⟨way.length, settles_iff_through.mpr ⟨way, hway, rfl⟩⟩

theorem passes_of_pass {result : α × Option Rule}
    (h : (r.pass limit rules x).outcome = .ok result) :
    ∃ counts, r.Passes rules x counts result.1 := by
  obtain ⟨ways, hways, -⟩ := passesThrough_of_pass h
  exact ⟨_, passes_iff_through.mpr ⟨ways, hways, rfl⟩⟩

end Simmer.Rewriting
