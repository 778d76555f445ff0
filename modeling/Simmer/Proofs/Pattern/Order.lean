import Simmer.Proofs.Pattern.Matching
import Simmer.Proofs.Selection.Order

/-!
Patterns and order. A stricter marker asks more of the positions and nothing else, so what a
pattern matches under it, the pattern matches under a weaker one as well. A loose clause asks
nothing of them but that they are different: it sees a component as a base and a multiset of
modifiers, and its own body in the same way.
-/
namespace Simmer

/-- What is made of the members of a list, each told whether it is the last. -/
theorem map_zipIdx_isLast {α β : Type} (f : α → Bool → β) (xs : List α) :
    (xs.zipIdx.map fun x => f x.1 (x.2 + 1 == xs.length)) =
      xs.dropLast.map (f · false) ++ xs.getLast?.toList.map (f · true) := by
  rcases List.eq_nil_or_concat xs with rfl | ⟨front, last, rfl⟩
  · rfl
  · have hfront : (front.zipIdx.map fun x => f x.1 (x.2 + 1 == (front ++ [last]).length)) =
        front.map (f · false) := by
      rw [← List.zipIdx_map_fst 0 front, List.map_map, List.zipIdx_map_fst]
      apply List.map_congr_left
      intro x hx
      have hi : x.2 < front.length := by simpa using (List.mem_zipIdx hx).2.1
      have hne : (x.2 + 1 == (front ++ [last]).length) = false := by
        rw [beq_eq_false_iff_ne, List.length_append, List.length_singleton]
        omega
      simp only [hne, Function.comp_apply]
    rw [List.concat_eq_append, List.zipIdx_append, List.map_append, hfront]
    simp

/-- Of a list, the last member matters, and the others as a multiset. -/
theorem perm_zipIdx_isLast {α β : Type} (f : α → Bool → β) {xs ys : List α}
    (hlast : xs.getLast? = ys.getLast?) (hfront : xs.dropLast.Perm ys.dropLast) :
    (xs.zipIdx.map fun x => f x.1 (x.2 + 1 == xs.length)).Perm
      (ys.zipIdx.map fun y => f y.1 (y.2 + 1 == ys.length)) := by
  rw [map_zipIdx_isLast, map_zipIdx_isLast, hlast]
  exact (hfront.map _).append_right _

/-- The target as it is wherever it stands. -/
def Target.anywhere (target : Target) : Target :=
  { target with index := 0 }

namespace Component

variable {t t' : Component}

/-- With one base and the same modifiers, two components offer the same targets. -/
theorem perm_targets (oracle : Oracle) (hbase : t.base? = t'.base?)
    (hmodifiers : t.modifiers.Perm t'.modifiers) :
    ((List.range t.tokens.length).map fun i => (t.target oracle i).anywhere).Perm
      ((List.range t'.tokens.length).map fun i => (t'.target oracle i).anywhere) := by
  have hoffers : ∀ c : Component,
      ((List.range c.tokens.length).map fun i => (c.target oracle i).anywhere) =
        c.tokens.zipIdx.map fun x =>
          ⟨x.1, 0, .ofConstant oracle x.1 (x.2 + 1 == c.tokens.length)⟩ := by
    intro c
    have htargets := congrArg (List.map Target.anywhere) (c.targets_eq_map_range oracle)
    rw [List.map_map] at htargets
    rw [← Function.comp_def, ← htargets, targets, List.map_map]
    rfl
  rw [hoffers t, hoffers t']
  exact perm_zipIdx_isLast (fun name last => Target.mk name 0 (.ofConstant oracle name last))
    hbase hmodifiers

end Component

namespace Clause

variable {oracle : Oracle} {c c' : Clause} {component t t' : Component} {ps : List Nat}

private theorem increasing_of_consecutive (h : ps.IsChain fun i j => j = i + 1) :
    ps.Pairwise (· < ·) := by
  have hsteps : ps.IsChain (· < ·) := h.imp fun i j hij => by omega
  exact hsteps.pairwise

/-- A marker asks nothing of the positions but their order. -/
theorem Places.withStrictness {s : Strictness} (h : c.Places oracle component ps)
    (hincreasing : s = .ordered → ps.Pairwise (· < ·))
    (hconsecutive : s = .contiguous → ps.IsChain fun i j => j = i + 1) :
    Places oracle { c with strictness := s } component ps where
  length_eq := h.length_eq
  injective := h.injective
  in_range := h.in_range
  fits := h.fits
  consistent := h.consistent
  increasing := hincreasing
  consecutive := hconsecutive

/-- Positions in a row are positions in order. -/
theorem Places.ordered_of_contiguous
    (h : Places oracle { c with strictness := .contiguous } component ps) :
    Places oracle { c with strictness := .ordered } component ps := by
  have hincreasing : ps.Pairwise (· < ·) := increasing_of_consecutive (h.consecutive rfl)
  exact h.withStrictness (fun _ => hincreasing) (by simp)

/-- Positions in order are positions. -/
theorem Places.loose_of_ordered
    (h : Places oracle { c with strictness := .ordered } component ps) :
    Places oracle { c with strictness := .loose } component ps :=
  h.withStrictness (by simp) (by simp)

theorem exists_places_iff_fitting :
    (∃ ps, c.Places oracle component ps) ↔
      ∃ ps found, Selection.Fitting c.strictness
        (fun slot i => Slot.found? oracle slot (component.target oracle i).anywhere)
        (c.slots oracle) component.tokens.length ps found := by
  have hfind : ∀ ps found, Selection.Fitting c.strictness
      (fun slot i => Slot.found? oracle slot (component.target oracle i).anywhere)
      (c.slots oracle) component.tokens.length ps found ↔ _ := fun ps found => fitting_iff_places
  simp only [hfind, exists_and_left, exists_eq, and_true]

/-- Loose clauses with the same slots can be placed where the same targets are offered. -/
theorem exists_places_loose_iff (hloose : c.strictness = .loose) (hloose' : c'.strictness = .loose)
    (hslots : (c.slots oracle).Perm (c'.slots oracle))
    (htargets : ((List.range t.tokens.length).map fun i => (t.target oracle i).anywhere).Perm
      ((List.range t'.tokens.length).map fun i => (t'.target oracle i).anywhere)) :
    (∃ ps, c.Places oracle t ps) ↔ ∃ ps, c'.Places oracle t' ps := by
  rw [exists_places_iff_fitting, exists_places_iff_fitting, hloose, hloose']
  exact Selection.exists_fitting_loose_perm_iff (Slot.found? oracle) hslots htargets

end Clause

namespace Pattern

/-- The pattern with another clause in front of its veto. -/
def withClause (c : Clause) : Pattern → Pattern
  | plain _ => plain c
  | .unless _ veto => .unless c veto

/-- The pattern with another marker in front of its body. -/
def withMarker (s : Strictness) (p : Pattern) : Pattern :=
  p.withClause { p.clause with strictness := s }

/-- No clause of the pattern has a marker, those of vetoes included. -/
def Loose : Pattern → Prop
  | plain c => c.strictness = .loose
  | .unless c veto => c.strictness = .loose ∧ veto.Loose

variable {oracle : Oracle} {p : Pattern} {c : Clause} {component t t' : Component}

theorem isSome_match?_withClause_iff :
    ((p.withClause c).match? oracle component).isSome = true ↔
      ¬ p.Vetoed oracle component ∧ ∃ ps, c.Places oracle component ps := by
  rw [isSome_match?_iff, matches_iff]
  cases p with
  | plain _ => rfl
  | «unless» _ veto => rfl

/-- A pattern that matches with the marker `&&` matches with `&` as well, and one that matches
with `&` matches without a marker as well. -/
theorem match_under_weaker_marker (oracle : Oracle) (p : Pattern) (component : Component) :
    (((p.withMarker .contiguous).match? oracle component).isSome = true →
      ((p.withMarker .ordered).match? oracle component).isSome = true) ∧
    (((p.withMarker .ordered).match? oracle component).isSome = true →
      ((p.withMarker .loose).match? oracle component).isSome = true) := by
  simp only [withMarker, isSome_match?_withClause_iff]
  constructor
  · intro h
    obtain ⟨hveto, ps, hps⟩ := h
    exact ⟨hveto, ps, hps.ordered_of_contiguous⟩
  · intro h
    obtain ⟨hveto, ps, hps⟩ := h
    exact ⟨hveto, ps, hps.loose_of_ordered⟩

/-- Something that is doubly so, unless it is salty. -/
def doubled : Pattern :=
  .unless ⟨[⟨"1", none⟩], .contiguous, [.var .modifier "1" none, .var .modifier "1" none,
    .var .ingredient "1" none]⟩
    (.plain ⟨[], .loose, [.constant "salty", .var .ingredient "1" none]⟩)

/-- A pair in a row is found as well where the order counts, and where it does not; the search
in order tries the cold token first. -/
theorem match_under_weaker_marker_doubled :
    ((doubled.withMarker .contiguous).match? (.plain ["Onion"])
        ⟨["cold", "hot", "hot", "Onion"]⟩).isSome = true ∧
      ((doubled.withMarker .ordered).match? (.plain ["Onion"])
        ⟨["cold", "hot", "hot", "Onion"]⟩).isSome = true ∧
      ((doubled.withMarker .loose).match? (.plain ["Onion"])
        ⟨["cold", "hot", "hot", "Onion"]⟩).isSome = true := by
  obtain ⟨hordered, hloose⟩ := match_under_weaker_marker (.plain ["Onion"]) doubled
    ⟨["cold", "hot", "hot", "Onion"]⟩
  have hrow : ((doubled.withMarker .contiguous).match? (.plain ["Onion"])
      ⟨["cold", "hot", "hot", "Onion"]⟩).isSome = true := rfl
  exact ⟨hrow, hordered hrow, hloose (hordered hrow)⟩

theorem matches_iff_of_loose (hp : p.Loose) (hbase : t.base? = t'.base?)
    (hmodifiers : t.modifiers.Perm t'.modifiers) :
    p.Matches oracle t ↔ p.Matches oracle t' := by
  have htargets := Component.perm_targets oracle hbase hmodifiers
  induction p with
  | plain c => exact Clause.exists_places_loose_iff hp hp (.refl _) htargets
  | «unless» c veto ih =>
    obtain ⟨hclause, hveto⟩ := hp
    have hplaces := Clause.exists_places_loose_iff hclause hclause (.refl _) htargets
    exact and_congr (not_congr (ih hveto)) hplaces

/-- Matching a loose pattern looks neither at the order of the modifiers of a component nor at
the order in front of the last token of its own body. -/
theorem loose_match_ignores_order (oracle : Oracle) (p : Pattern) :
    (p.Loose → ∀ t t' : Component, t.base? = t'.base? → t.modifiers.Perm t'.modifiers →
      (p.match? oracle t).isSome = (p.match? oracle t').isSome) ∧
    (p.clause.strictness = .loose → ∀ body : List Token,
      body.getLast? = p.clause.body.getLast? → body.dropLast.Perm p.clause.body.dropLast →
      ∀ t, ((p.withClause { p.clause with body := body }).match? oracle t).isSome =
        (p.match? oracle t).isSome) := by
  constructor
  · intro hp t t' hbase hmodifiers
    rw [Bool.eq_iff_iff, isSome_match?_iff, isSome_match?_iff]
    exact matches_iff_of_loose hp hbase hmodifiers
  · intro hloose body hlast hfront t
    rw [Bool.eq_iff_iff, isSome_match?_withClause_iff, isSome_match?_iff, matches_iff]
    have hslots : (Clause.slots oracle { p.clause with body := body }).Perm
        (p.clause.slots oracle) :=
      perm_zipIdx_isLast (fun token last => Slot.mk token (token.category oracle last)) hlast
        hfront
    have hplaces : (∃ ps, Clause.Places oracle { p.clause with body := body } t ps) ↔
        ∃ ps, p.clause.Places oracle t ps :=
      Clause.exists_places_loose_iff hloose hloose hslots (.refl _)
    rw [hplaces]

/-- Something with two modifiers, the second of them cold, unless it is salty. -/
def cooled : Pattern :=
  .unless ⟨[], .loose, [.var .modifier "1" none, .var .modifier "2" (some (.tag "cold_tag")),
    .var .ingredient "1" none]⟩
    (.plain ⟨[], .loose, [.constant "salty", .var .ingredient "1" none]⟩)

/-- The cold token may come first or last in front of the onion, and so may the variable that
asks for it. -/
theorem loose_match_ignores_order_cooled :
    (cooled.match? (.plain ["Onion"]) ⟨["cold", "hot", "Onion"]⟩).isSome = true ∧
      (cooled.match? (.plain ["Onion"]) ⟨["hot", "cold", "Onion"]⟩).isSome = true ∧
      ((cooled.withClause { cooled.clause with
        body := [.var .modifier "2" (some (.tag "cold_tag")), .var .modifier "1" none,
          .var .ingredient "1" none] }).match? (.plain ["Onion"])
        ⟨["cold", "hot", "Onion"]⟩).isSome = true := by
  obtain ⟨hcomponents, hbodies⟩ := loose_match_ignores_order (.plain ["Onion"]) cooled
  have hcold : (cooled.match? (.plain ["Onion"]) ⟨["cold", "hot", "Onion"]⟩).isSome = true := rfl
  have hturned := hcomponents ⟨rfl, rfl⟩ ⟨["cold", "hot", "Onion"]⟩ ⟨["hot", "cold", "Onion"]⟩ rfl
    (.swap "hot" "cold" [])
  have hbody := hbodies rfl [.var .modifier "2" (some (.tag "cold_tag")), .var .modifier "1" none,
    .var .ingredient "1" none] rfl (.swap _ _ []) ⟨["cold", "hot", "Onion"]⟩
  exact ⟨hcold, hturned ▸ hcold, hbody.trans hcold⟩

end Pattern

end Simmer
