import Simmer.Traced
import Mathlib.Data.List.Forall2

/-!
Results that may be faults. A sequence of steps succeeds exactly when each of its steps does,
and a step over a list succeeds exactly when it does at every member.
-/
namespace Simmer.Outcome

variable {ε α β : Type}

theorem bind_eq_ok_iff {x : Except ε α} {f : α → Except ε β} {b : β} :
    x >>= f = .ok b ↔ ∃ a, x = .ok a ∧ f a = .ok b := by
  cases x with
  | error e => simp [bind, Except.bind]
  | ok a => simp [bind, Except.bind]

theorem bind_eq_error_iff {x : Except ε α} {f : α → Except ε β} {e : ε} :
    x >>= f = .error e ↔ x = .error e ∨ ∃ a, x = .ok a ∧ f a = .error e := by
  cases x with
  | error e' => simp [bind, Except.bind]
  | ok a => simp [bind, Except.bind]

theorem map_eq_ok_iff {x : Except ε α} {f : α → β} {b : β} :
    x.map f = .ok b ↔ ∃ a, x = .ok a ∧ f a = b := by
  cases x with
  | error e => simp [Except.map]
  | ok a => simp [Except.map]

theorem map_eq_error_iff {x : Except ε α} {f : α → β} {e : ε} :
    x.map f = .error e ↔ x = .error e := by
  cases x with
  | error e' => simp [Except.map]
  | ok a => simp [Except.map]

theorem mapError_eq_ok_iff {ε' : Type} {x : Except ε α} {f : ε → ε'} {a : α} :
    x.mapError f = .ok a ↔ x = .ok a := by
  cases x with
  | error e => simp [Except.mapError]
  | ok a => simp [Except.mapError]

theorem mapM_eq_ok_iff {f : α → Except ε β} {xs : List α} {ys : List β} :
    xs.mapM f = .ok ys ↔ List.Forall₂ (fun x y => f x = .ok y) xs ys := by
  induction xs generalizing ys with
  | nil =>
    rw [List.mapM_nil, List.forall₂_nil_left_iff]
    exact ⟨fun h => (Except.ok.inj h).symm, fun h => h ▸ rfl⟩
  | cons x xs ih =>
    rw [List.mapM_cons, bind_eq_ok_iff, List.forall₂_cons_left_iff]
    constructor
    · intro h
      obtain ⟨y, hy, hrest⟩ := h
      obtain ⟨rest, hys, hout⟩ := bind_eq_ok_iff.mp hrest
      exact ⟨y, rest, hy, ih.mp hys, (Except.ok.inj hout).symm⟩
    · intro h
      obtain ⟨y, rest, hy, hys, hout⟩ := h
      exact ⟨y, hy, bind_eq_ok_iff.mpr ⟨rest, ih.mpr hys, hout ▸ rfl⟩⟩

theorem mapM_eq_ok_iff_map_eq {f : α → Except ε β} {xs : List α} {ys : List β} :
    xs.mapM f = .ok ys ↔ xs.map f = ys.map .ok := by
  rw [mapM_eq_ok_iff, ← List.forall₂_eq_eq_eq, List.forall₂_map_left_iff,
    List.forall₂_map_right_iff]

/-- What fails after all that keeps results has failed before it. -/
theorem exists_error_of_error {x y : Except ε α} (h : ∀ a, x = .ok a → y = .ok a) {e : ε}
    (he : y = .error e) : ∃ e', x = .error e' := by
  cases x with
  | error e' => exact ⟨e', rfl⟩
  | ok a => cases (h a rfl).symm.trans he

/-- Every result of a list of successful steps comes from one of them. -/
theorem exists_of_mem_mapM {f : α → Except ε β} {xs : List α} {ys : List β}
    (h : xs.mapM f = .ok ys) {y : β} (hy : y ∈ ys) : ∃ x ∈ xs, f x = .ok y := by
  have hall := mapM_eq_ok_iff.mp h
  clear h
  induction hall with
  | nil => simp at hy
  | cons hx _ ih =>
    rcases List.mem_cons.mp hy with rfl | hy
    · exact ⟨_, List.mem_cons_self, hx⟩
    · obtain ⟨x, hmem, hfx⟩ := ih hy
      exact ⟨x, List.mem_cons_of_mem _ hmem, hfx⟩

/-- In a list of successful steps, each has its result. -/
theorem exists_of_mem_of_mapM {f : α → Except ε β} {xs : List α} {ys : List β}
    (h : xs.mapM f = .ok ys) {x : α} (hx : x ∈ xs) : ∃ y ∈ ys, f x = .ok y := by
  have hall := mapM_eq_ok_iff.mp h
  clear h
  induction hall with
  | nil => simp at hx
  | cons hy _ ih =>
    rcases List.mem_cons.mp hx with rfl | hx
    · exact ⟨_, List.mem_cons_self, hy⟩
    · obtain ⟨y, hmem, hfx⟩ := ih hx
      exact ⟨y, List.mem_cons_of_mem _ hmem, hfx⟩

/-- Steps that all succeed make a sequence that does. -/
theorem exists_mapM {f : α → Except ε β} {xs : List α} (h : ∀ x ∈ xs, ∃ y, f x = .ok y) :
    ∃ ys, xs.mapM f = .ok ys := by
  induction xs with
  | nil => exact ⟨[], rfl⟩
  | cons x xs ih =>
    obtain ⟨y, hy⟩ := h x List.mem_cons_self
    obtain ⟨ys, hys⟩ := ih fun z hz => h z (List.mem_cons_of_mem _ hz)
    have hall : List.Forall₂ (fun x y => f x = .ok y) (x :: xs) (y :: ys) :=
      .cons hy (mapM_eq_ok_iff.mp hys)
    exact ⟨y :: ys, mapM_eq_ok_iff.mpr hall⟩

/-- The fault of a sequence is that of its first step that fails. -/
theorem mapM_eq_error_iff {f : α → Except ε β} {xs : List α} {e : ε} :
    xs.mapM f = .error e ↔ ∃ before x after, xs = before ++ x :: after ∧
      (∀ y ∈ before, ∃ b, f y = .ok b) ∧ f x = .error e := by
  induction xs with
  | nil =>
    constructor
    · intro h
      cases h
    · intro h
      obtain ⟨before, x, after, heq, -⟩ := h
      simp at heq
  | cons x xs ih =>
    rw [List.mapM_cons, bind_eq_error_iff]
    constructor
    · intro h
      rcases h with hx | ⟨y, hy, hrest⟩
      · exact ⟨[], x, xs, rfl, by simp, hx⟩
      · rcases bind_eq_error_iff.mp hrest with hxs | ⟨ys, -, hpure⟩
        · obtain ⟨before, z, after, rfl, hbefore, hz⟩ := ih.mp hxs
          exact ⟨x :: before, z, after, rfl, List.forall_mem_cons.mpr ⟨⟨y, hy⟩, hbefore⟩, hz⟩
        · cases hpure
    · intro h
      obtain ⟨before, z, after, heq, hbefore, hz⟩ := h
      cases before with
      | nil =>
        obtain ⟨rfl, rfl⟩ := List.cons.inj heq
        exact Or.inl hz
      | cons first before =>
        obtain ⟨rfl, rfl⟩ := List.cons.inj heq
        obtain ⟨⟨y, hy⟩, hothers⟩ := List.forall_mem_cons.mp hbefore
        have hrest := ih.mpr ⟨before, z, after, rfl, hothers, hz⟩
        exact Or.inr ⟨y, hy, bind_eq_error_iff.mpr (Or.inl hrest)⟩

/-- A fault of a sequence is the fault of one of its steps. -/
theorem exists_of_mapM_eq_error {f : α → Except ε β} {xs : List α} {e : ε}
    (h : xs.mapM f = .error e) : ∃ x ∈ xs, f x = .error e := by
  obtain ⟨before, x, after, rfl, -, hx⟩ := mapM_eq_error_iff.mp h
  exact ⟨x, by simp, hx⟩

end Simmer.Outcome

namespace Simmer.Run

variable {α β : Type}

theorem outcome_mapM (f : α → Run β) (xs : List α) :
    (xs.mapM f).outcome = xs.mapM fun x => (f x).outcome := by
  induction xs with
  | nil => rfl
  | cons x xs ih =>
    simp only [List.mapM_cons, outcome_bind, outcome_pure, ih]
    rfl

theorem ext {x y : Run α} (houtcome : x.outcome = y.outcome) (hevents : x.events = y.events) :
    x = y :=
  Traced.ext houtcome hevents

/-- What goes on after a run matters for its result only. -/
theorem bind_congr {x : Run α} {f g : α → Run β} (h : ∀ a, x.outcome = .ok a → f a = g a) :
    x >>= f = x >>= g := by
  cases hx : x.outcome with
  | error fault => exact ext (by simp [hx, Except.bind]) (by simp [hx])
  | ok a => exact ext (by simp [hx, Except.bind, h a hx]) (by simp [hx, h a hx])

theorem mapM_congr {f g : α → Run β} {xs : List α} (h : ∀ x ∈ xs, f x = g x) :
    xs.mapM f = xs.mapM g := by
  induction xs with
  | nil => rfl
  | cons x xs ih =>
    obtain ⟨hfirst, hrest⟩ := List.forall_mem_cons.mp h
    rw [List.mapM_cons, List.mapM_cons, hfirst, ih hrest]

end Simmer.Run
