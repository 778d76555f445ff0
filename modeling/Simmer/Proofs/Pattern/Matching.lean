import Simmer.Proofs.Pattern.Placement

/-!
Matching with vetoes. Whether a pattern matches is said by recursion on its vetoes: the body
can be placed and the veto does not match. A pattern that was read from a text gives back the
bindings of the least placement, unless it is vetoed.
-/
namespace Simmer.Pattern

/-- The body of the first clause can be placed, and the veto behind it does not match. -/
def Matches (oracle : Oracle) (component : Component) : Pattern → Prop
  | plain c => ∃ ps, c.Places oracle component ps
  | .unless c veto => ¬ veto.Matches oracle component ∧ ∃ ps, c.Places oracle component ps

/-- There is a veto, and it matches. -/
def Vetoed (oracle : Oracle) (component : Component) (p : Pattern) : Prop :=
  ∃ veto, p.veto? = some veto ∧ veto.Matches oracle component

variable {oracle : Oracle} {component : Component}

theorem matches_iff {p : Pattern} :
    p.Matches oracle component ↔
      ¬ p.Vetoed oracle component ∧ ∃ ps, p.clause.Places oracle component ps := by
  cases p with
  | plain c => simp [Matches, Vetoed, veto?, clause]
  | «unless» c veto => simp [Matches, Vetoed, veto?, clause]

theorem isSome_match?_iff {p : Pattern} :
    (p.match? oracle component).isSome = true ↔ p.Matches oracle component := by
  have hclause : ∀ c : Clause,
      (c.match? oracle component).isSome = true ↔ ∃ ps, c.Places oracle component ps := by
    intro c
    rw [← Option.ne_none_iff_isSome, Ne, Clause.match?_eq_none_iff, Classical.not_not]
  induction p with
  | plain c => exact hclause c
  | «unless» c veto ih =>
    rw [Matches, ← hclause c, ← show _ ↔ _ from ih, match?]
    by_cases hveto : (veto.match? oracle component).isSome = true
    · simp [hveto]
    · simp [hveto]

theorem vetoed_iff {p : Pattern} :
    p.Vetoed oracle component ↔
      ∃ veto, p.veto? = some veto ∧ (veto.match? oracle component).isSome = true := by
  simp only [Vetoed, isSome_match?_iff]

/-- Behind its veto, a pattern matches as its first clause does. -/
theorem match?_eq_some_iff {p : Pattern} {b : Bindings} :
    p.match? oracle component = some b ↔
      ¬ p.Vetoed oracle component ∧ p.clause.match? oracle component = some b := by
  rw [vetoed_iff]
  cases p with
  | plain c => simp [match?, veto?, clause]
  | «unless» c veto => simp [match?, veto?, clause]

theorem Separate.clause {p : Pattern} (hp : p.Separate) : p.clause.Separate := by
  cases p with
  | plain c => exact hp
  | «unless» c veto => exact hp.1

/-- What a pattern matches has a token for each one of the body. -/
theorem length_body_le {p : Pattern} {b : Bindings} (h : p.match? oracle component = some b) :
    p.clause.body.length ≤ component.tokens.length := by
  obtain ⟨ps, -, hleast, -⟩ := Clause.match?_eq_some_iff_collect.mp (match?_eq_some_iff.mp h).2
  have hsub : ps ⊆ List.range component.tokens.length := fun i hi =>
    List.mem_range.mpr (hleast.holds.in_range i hi)
  have hle := (List.subperm_of_subset hleast.holds.injective hsub).length_le
  rwa [hleast.holds.length_eq, List.length_range] at hle

/-- A pattern that was read matches nothing exactly when it is vetoed or its body cannot be
placed. Otherwise it binds what the least placement yields. -/
theorem match?_of_parse {text : String} {p : Pattern} (hp : parse text = .ok p)
    (oracle : Oracle) (component : Component) :
    (p.match? oracle component = none ↔
        p.Vetoed oracle component ∨ ¬ ∃ ps, p.clause.Places oracle component ps) ∧
      ∀ b, p.match? oracle component = some b ↔
        ¬ p.Vetoed oracle component ∧
          ∃ ps, Selection.Least (p.clause.Places oracle component) ps ∧
            b.entries = p.clause.yield oracle component ps := by
  have hseparate : p.clause.Separate := (separate_of_parse hp).clause
  constructor
  · rw [← Option.not_isSome_iff_eq_none, isSome_match?_iff, matches_iff, not_and_or,
      Classical.not_not]
  · intro b
    rw [match?_eq_some_iff, Clause.match?_eq_some_iff hseparate]

/-- The first modifier is taken for `m1`, and the collector keeps the other one. -/
theorem match?_of_parse_ordered :
    ∃ p, parse "o1 & m1 i1 !! hot i1" = .ok p ∧
      ∃ ps, Selection.Least
          (p.clause.Places (.plain ["Onion"]) ⟨["cold", "diced", "Onion"]⟩) ps ∧
        p.clause.yield (.plain ["Onion"]) ⟨["cold", "diced", "Onion"]⟩ ps =
          [("m1", .single "cold"), ("i1", .single "Onion"), ("o1", .collected ["diced"])] := by
  have hparse : parse "o1 & m1 i1 !! hot i1" = .ok (.unless
      ⟨[⟨"1", none⟩], .ordered, [.var .modifier "1" none, .var .ingredient "1" none]⟩
      (.plain ⟨[], .loose, [.constant "hot", .var .ingredient "1" none]⟩)) := rfl
  have hmatch := match?_of_parse hparse (.plain ["Onion"]) ⟨["cold", "diced", "Onion"]⟩
  obtain ⟨-, ps, hleast, hyield⟩ := (hmatch.2 ⟨[("m1", .single "cold"), ("i1", .single "Onion"),
    ("o1", .collected ["diced"])], by decide⟩).mp rfl
  exact ⟨_, hparse, ps, hleast, hyield.symm⟩

end Simmer.Pattern
