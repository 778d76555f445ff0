import Simmer.Selection
import Mathlib.Data.List.Basic

/-!
The search as it is described: without a state that is taken back. Every demand tries the
members it may take from left to right, and hands the others on. Attempts over one state amount
to this when each that fails leaves the state as it found it.
-/
namespace Simmer

namespace Strictness

variable {γ : Type}

/-- The members left for the next demand when the one at position `i` is taken. -/
def after (s : Strictness) (i : Nat) (pool : List γ) : List γ :=
  match s with
  | loose => pool.eraseIdx i
  | ordered => pool.drop (i + 1)
  | contiguous => pool.drop (i + 1)

end Strictness

namespace Selection

variable {σ δ γ : Type}

/-- The members chosen for the demands, in their order, and the last state. -/
@[specialize]
def search {m : Type → Type} [Monad m] (s : Strictness) (accept : σ → δ → γ → m (Option σ)) :
    Bool → List δ → List γ → σ → m (Option (List γ × σ))
  | _, [], _, state => pure (some ([], state))
  | first, demand :: demands, pool, state =>
    (s.window first pool).zipIdx.findSomeM? fun (x, i) => do
      match ← accept state demand x with
      | none => pure none
      | some next =>
        match ← search s accept false demands (s.after i pool) next with
        | none => pure none
        | some (chosen, final) => pure (some (x :: chosen, final))

/-- The search when accepting a member has no effect beside its answer. -/
def find? (s : Strictness) (accept : σ → δ → γ → Option σ) (first : Bool) (demands : List δ)
    (pool : List γ) (state : σ) : Option (List γ × σ) :=
  (search s (fun state demand x => (pure (accept state demand x) : Id _))
    first demands pool state).run

/-- A list is cut at one of its members. -/
theorem exists_cut {xs : List γ} {i : Nat} {x : γ} (h : xs[i]? = some x) :
    ∃ front back, xs = front ++ x :: back ∧ front.length = i := by
  obtain ⟨hlt, rfl⟩ := List.getElem?_eq_some_iff.mp h
  exact ⟨xs.take i, xs.drop (i + 1), by simp, List.length_take_of_le (Nat.le_of_lt hlt)⟩

section attempts

variable {m : Type → Type} [Monad m] {α β ρ τ : Type}

theorem findSomeM?_congr {f g : α → m (Option β)} {xs : List α} (h : ∀ x ∈ xs, f x = g x) :
    xs.findSomeM? f = xs.findSomeM? g := by
  induction xs with
  | nil => rfl
  | cons x xs ih =>
    obtain ⟨hfirst, hrest⟩ := List.forall_mem_cons.mp h
    simp only [List.findSomeM?, hfirst, ih hrest]

theorem findSomeM?_map (g : α → γ) (f : γ → m (Option β)) (xs : List α) :
    (xs.map g).findSomeM? f = xs.findSomeM? fun x => f (g x) := by
  induction xs with
  | nil => rfl
  | cons x xs ih => simp only [List.map_cons, List.findSomeM?, ih]

/-- The members of a list may be looked up one by one. -/
theorem findSomeM?_range (f : α × Nat → m (Option β)) (xs : List α) :
    ((List.range xs.length).findSomeM? fun i => xs[i]?.elim (pure none) fun x => f (x, i)) =
      xs.zipIdx.findSomeM? f := by
  induction xs generalizing f with
  | nil => rfl
  | cons x xs ih =>
    have hshift : xs.zipIdx 1 = xs.zipIdx.map fun p => (p.1, p.2 + 1) := List.zipIdx_succ
    have hrest := ih fun p => f (p.1, p.2 + 1)
    rw [List.length_cons, List.range_succ_eq_map, List.zipIdx_cons, hshift]
    simp only [List.findSomeM?, findSomeM?_map, List.getElem?_cons_zero, List.getElem?_cons_succ]
    rw [hrest]
    rfl

variable [LawfulMonad m]

/-- Members that are left out may as well be tried in vain. -/
theorem findSomeM?_filter (p : α → Bool) (f : α → m (Option β)) (xs : List α) :
    (xs.filter p).findSomeM? f = xs.findSomeM? fun x => if p x then f x else pure none := by
  induction xs with
  | nil => rfl
  | cons x xs ih =>
    by_cases hx : p x = true
    · simp only [List.filter_cons_of_pos hx, List.findSomeM?, hx, if_true, ih]
    · simp only [List.filter_cons_of_neg hx, List.findSomeM?, hx, Bool.false_eq_true, if_false,
        pure_bind, ih]

/-- What an attempt comes to that left the state alone or ended with a result. -/
def conclude (state : σ) (leave : τ → ρ × σ) : Option τ → Option ρ × σ
  | none => (none, state)
  | some found => (some (leave found).1, (leave found).2)

/-- Attempts that leave the state alone when they fail all begin with the same state. -/
theorem attempts_eq_map {attempt : γ → σ → m (Option ρ × σ)} {find : γ → m (Option τ)}
    {state : σ} {leave : τ → ρ × σ} {xs : List γ}
    (h : ∀ x ∈ xs, attempt x state = conclude state leave <$> find x) :
    attempts attempt xs state = conclude state leave <$> xs.findSomeM? find := by
  induction xs with
  | nil => simp [attempts, List.findSomeM?, conclude]
  | cons x xs ih =>
    obtain ⟨hfirst, hrest⟩ := List.forall_mem_cons.mp h
    rw [attempts, List.findSomeM?, hfirst, map_bind, bind_map_left]
    congr 1
    funext found
    cases found with
    | none => exact ih hrest
    | some t => simp [conclude]

end attempts

variable {s : Strictness} {accept : σ → δ → γ → Option σ}

theorem run_findSomeM? {α β : Type} (f : α → Id (Option β)) (xs : List α) :
    (xs.findSomeM? f).run = xs.findSome? fun x => (f x).run := by
  induction xs with
  | nil => rfl
  | cons x xs ih =>
    simp only [List.findSomeM?, List.findSome?, Id.run_bind]
    cases (f x).run with
    | none => exact ih
    | some b => rfl

@[simp]
theorem find?_nil (first : Bool) (pool : List γ) (state : σ) :
    find? s accept first [] pool state = some ([], state) := rfl

theorem find?_cons (first : Bool) (demand : δ) (demands : List δ) (pool : List γ) (state : σ) :
    find? s accept first (demand :: demands) pool state =
      (s.window first pool).zipIdx.findSome? fun (x, i) =>
        (accept state demand x).bind fun next =>
          (find? s accept false demands (s.after i pool) next).map fun (chosen, final) =>
            (x :: chosen, final) := by
  rw [find?, search, run_findSomeM?]
  congr 1
  funext p
  obtain ⟨x, i⟩ := p
  simp only [Id.run_bind, Id.run_pure, find?]
  cases accept state demand x with
  | none => rfl
  | some next =>
    simp only [Id.run_bind, Option.bind_some]
    split <;> simp_all

end Selection

end Simmer
