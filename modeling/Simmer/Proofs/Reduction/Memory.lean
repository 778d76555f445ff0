import Simmer.Proofs.Reduction.Idempotence

/-!
Mixtures that come back to a state. Two mixtures are one state when they are the same multiset,
but what a mixture rule makes of them depends on the order of their components. So the driver,
which remembers states, refuses reductions that would end; without a return it refuses none.
-/
namespace Simmer.RuleSystem

open Rewriting

/-- Without a memory of states, the components are reduced alone to those of `start`, and from
there all rules together reach `v` through the stages, always within the cap. -/
structure EndsWithoutMemory (s : RuleSystem) (m start : Mixture) (stages : List (Stage Mixture))
    (v : Mixture) : Prop where
  alone : List.Forall₂ (fun c d => ∃ log,
    (ofComponents s.oracle).Reduces (s.rules.filter Rule.isComponent) c log d ∧
      Within s.cap log) m.components start.components
  together : (ofMixtures s.oracle).ReducesThrough s.rules start stages v
  within : Within s.cap (stages.map Stage.counts)

variable {s : RuleSystem} {m start start' v w : Mixture} {stages stages' : List (Stage Mixture)}

theorem EndsWithoutMemory.mapM_components (h : s.EndsWithoutMemory m start stages v) :
    m.components.mapM (fun c => (s.reduceComponent c).outcome) = .ok start.components := by
  rw [Outcome.mapM_eq_ok_iff]
  exact h.alone.imp fun c d => reduceComponent_eq_ok_iff.mpr

theorem EndsWithoutMemory.unique (hv : s.EndsWithoutMemory m start stages v)
    (hw : s.EndsWithoutMemory m start' stages' w) :
    start = start' ∧ stages = stages' ∧ v = w := by
  have hcomponents := Except.ok.inj (hv.mapM_components.symm.trans hw.mapM_components)
  obtain rfl : start = start' := congrArg Mixture.mk hcomponents
  obtain ⟨rfl, rfl⟩ := hv.together.unique hw.together
  exact ⟨rfl, rfl, rfl⟩

/-- A mixture is reduced where it would be without a memory of states, and never returns. -/
theorem reduceMixture_eq_ok_iff_neverReturns :
    (s.reduceMixture m).outcome = .ok v ↔
      ∃ start stages, s.EndsWithoutMemory m start stages v ∧
        (ofMixtures s.oracle).NeverReturns stages := by
  rw [reduceMixture_eq_ok_iff]
  constructor
  · intro h
    obtain ⟨components, hcomponents, hdrive⟩ := h
    obtain ⟨stages, hstages, hwithin, hnever⟩ := drive_eq_ok_iff_neverReturns.mp hdrive
    have halone := (Outcome.mapM_eq_ok_iff.mp hcomponents).imp fun c d =>
      reduceComponent_eq_ok_iff.mp
    exact ⟨⟨components⟩, stages, ⟨halone, hstages, hwithin⟩, hnever⟩
  · intro h
    obtain ⟨start, stages, hends, hnever⟩ := h
    have hdrive := drive_eq_ok_iff_neverReturns.mpr
      ⟨stages, hends.together, hends.within, hnever⟩
    exact ⟨start.components, hends.mapM_components, hdrive⟩

namespace EndsWithoutMemory

theorem neverReturns_of_ok (h : s.EndsWithoutMemory m start stages v)
    (hw : (s.reduceMixture m).outcome = .ok w) : (ofMixtures s.oracle).NeverReturns stages := by
  obtain ⟨start', stages', hends, hnever⟩ := reduceMixture_eq_ok_iff_neverReturns.mp hw
  obtain ⟨-, rfl, -⟩ := h.unique hends
  exact hnever

theorem diverges_of_return (h : s.EndsWithoutMemory m start stages v)
    (hreturn : ¬ (ofMixtures s.oracle).NeverReturns stages) :
    Diverges s.cap (s.reduceMixture m).outcome := by
  rcases reduceMixture_ok_or_diverges s m with ⟨w, hw⟩ | hdiverges
  · exact absurd (h.neverReturns_of_ok hw) hreturn
  · exact hdiverges

end EndsWithoutMemory

/-- Where a reduction without memory ends within the cap, the driver finds its end exactly when
the reduction comes back to no state on its way, and otherwise diverges. -/
theorem reduceMixture_of_endsWithoutMemory (h : s.EndsWithoutMemory m start stages v) :
    ((s.reduceMixture m).outcome = .ok v ↔ (ofMixtures s.oracle).NeverReturns stages) ∧
      (Diverges s.cap (s.reduceMixture m).outcome ↔
        ¬ (ofMixtures s.oracle).NeverReturns stages) := by
  have hok : (ofMixtures s.oracle).NeverReturns stages →
      (s.reduceMixture m).outcome = .ok v := fun hnever =>
    reduceMixture_eq_ok_iff_neverReturns.mpr ⟨start, stages, h, hnever⟩
  refine ⟨⟨h.neverReturns_of_ok, hok⟩, ?_, h.diverges_of_return⟩
  intro hdiverges hnever
  exact hdiverges.ne_ok (hok hnever)

/-- The water and two pieces of one kind: the first piece cools down, and the water and the
second piece take over what the other two were like. -/
def exchange : MixtureRule where
  reactants := ⟨[.plain ⟨[], .loose, [.var .modifier "1" none, .var .ingredient "1" none]⟩,
    .plain ⟨[], .loose, [.var .modifier "2" none, .constant "Water"]⟩,
    .plain ⟨[], .loose, [.var .ingredient "1" none]⟩]⟩
  products := [⟨[.var .modifier "1" none, .constant "Water"]⟩,
    ⟨[.constant "cold", .var .ingredient "1" none]⟩,
    ⟨[.var .modifier "2" none, .var .ingredient "1" none]⟩]
  closed := by decide

def pot : RuleSystem :=
  ⟨[.mixture exchange], .plain ["Onion", "Water"], defaultCap⟩

def soup (water first second : String) : Mixture :=
  ⟨[⟨[water, "Water"]⟩, ⟨[first, "Onion"]⟩, ⟨[second, "Onion"]⟩]⟩

/-- A soup with a hot piece, which lies in front of the water. -/
def topped : Mixture :=
  ⟨[⟨["hot", "Onion"]⟩, ⟨["cold", "Water"]⟩, ⟨["cold", "Onion"]⟩]⟩

/-- The pot has no rule for a component alone. -/
theorem alone_pot (m : Mixture) :
    List.Forall₂ (fun c d => ∃ log,
      (ofComponents pot.oracle).Reduces (pot.rules.filter Rule.isComponent) c log d ∧
        Within pot.cap log) m.components m.components := by
  rw [List.forall₂_same]
  intro c _
  exact ⟨[[]], .last (.nil c) (by simp [Quiet]), ⟨by decide, by simp⟩⟩

section trajectory

variable {n u : Mixture} {way : List Mixture}

/-- An exchange that changes the multiset is a move on the way of the rule. -/
theorem moves_exchange (happly : (exchange.apply pot.oracle m).outcome = .ok n)
    (hkey : ¬ n.components.Perm m.components)
    (hrest : (ofMixtures pot.oracle).SettlesThrough (.mixture exchange) n way u) :
    (ofMixtures pot.oracle).SettlesThrough (.mixture exchange) m (m :: way) u :=
  .moves happly (fun heq => hkey (Mixture.key_eq_iff_perm.mp heq)) hrest

/-- Once every piece and the water are cold, the exchange gives back what it takes. -/
theorem settles_cold :
    (ofMixtures pot.oracle).SettlesThrough (.mixture exchange) (soup "cold" "cold" "cold") []
      (soup "cold" "cold" "cold") := by
  have happly : (exchange.apply pot.oracle (soup "cold" "cold" "cold")).outcome =
      .ok (soup "cold" "cold" "cold") := by
    rw [MixtureRule.outcome_apply]
    rfl
  exact .still happly rfl

theorem settles_warm :
    (ofMixtures pot.oracle).SettlesThrough (.mixture exchange) (soup "cold" "cold" "hot")
      [soup "cold" "cold" "hot"] (soup "cold" "cold" "cold") := by
  have happly : (exchange.apply pot.oracle (soup "cold" "cold" "hot")).outcome =
      .ok (soup "cold" "cold" "cold") := by
    rw [MixtureRule.outcome_apply]
    rfl
  exact moves_exchange happly (by decide) settles_cold

theorem settles_topped :
    (ofMixtures pot.oracle).SettlesThrough (.mixture exchange) topped
      [topped, soup "hot" "cold" "cold", soup "cold" "cold" "hot"]
      (soup "cold" "cold" "cold") := by
  have hfirst : (exchange.apply pot.oracle topped).outcome =
      .ok (soup "hot" "cold" "cold") := by
    rw [MixtureRule.outcome_apply]
    rfl
  have hsecond : (exchange.apply pot.oracle (soup "hot" "cold" "cold")).outcome =
      .ok (soup "cold" "cold" "hot") := by
    rw [MixtureRule.outcome_apply]
    rfl
  exact moves_exchange hfirst (by decide) (moves_exchange hsecond (by decide) settles_warm)

/-- One pass of exchanges and a quiet one. -/
theorem ends_of_settles (hne : way ≠ [])
    (hway : (ofMixtures pot.oracle).SettlesThrough (.mixture exchange) m way
      (soup "cold" "cold" "cold")) (hlength : way.length < pot.cap) :
    pot.EndsWithoutMemory m m [⟨m, [way]⟩, ⟨soup "cold" "cold" "cold", [[]]⟩]
      (soup "cold" "cold" "cold") := by
  have hloud : ¬ Quiet ([way].map List.length) := by
    simpa [Quiet] using hne
  have hcap : pot.cap = 1000 := rfl
  refine ⟨alone_pot m, .more (.cons hway (.nil _)) hloud
    (.last (.cons settles_cold (.nil _)) (by simp [Quiet])), ⟨?_, ?_⟩⟩
  · simp [hcap]
  · simp only [Stage.counts, List.map_cons, List.map_nil, List.forall_mem_cons, List.length_nil]
    exact ⟨⟨by omega, by simp⟩, ⟨by omega, by simp⟩, by simp⟩

end trajectory

/-- The soup with a hot piece behind is reduced: it comes back to no state. -/
theorem reduceMixture_of_endsWithoutMemory_warm :
    pot.EndsWithoutMemory (soup "cold" "cold" "hot") (soup "cold" "cold" "hot")
        [⟨soup "cold" "cold" "hot", [[soup "cold" "cold" "hot"]]⟩,
          ⟨soup "cold" "cold" "cold", [[]]⟩] (soup "cold" "cold" "cold") ∧
      (pot.reduceMixture (soup "cold" "cold" "hot")).outcome =
        .ok (soup "cold" "cold" "cold") := by
  have hends := ends_of_settles (by simp) settles_warm (by decide)
  refine ⟨hends, (reduceMixture_of_endsWithoutMemory hends).1.mpr ⟨?_, ?_⟩⟩
  · have hkey : (soup "cold" "cold" "hot").key ≠ (soup "cold" "cold" "cold").key := fun heq =>
      absurd (Mixture.key_eq_iff_perm.mp heq) (by decide)
    simpa [ofMixtures] using hkey
  · simp

/-- The same soup with the hot piece on top is refused: after two exchanges it is the same
multiset again, in the order from which one more exchange would have ended the reduction. -/
theorem reduceMixture_refuses_return :
    pot.EndsWithoutMemory topped topped
        [⟨topped, [[topped, soup "hot" "cold" "cold", soup "cold" "cold" "hot"]]⟩,
          ⟨soup "cold" "cold" "cold", [[]]⟩] (soup "cold" "cold" "cold") ∧
      (pot.reduceMixture topped).outcome ≠ .ok (soup "cold" "cold" "cold") ∧
      Diverges pot.cap (pot.reduceMixture topped).outcome := by
  have hends := ends_of_settles (by simp) settles_topped (by decide)
  have hsame : (soup "cold" "cold" "hot").key = topped.key :=
    Mixture.key_eq_iff_perm.mpr (by decide)
  have hreturn : ¬ (ofMixtures pot.oracle).NeverReturns
      [⟨topped, [[topped, soup "hot" "cold" "cold", soup "cold" "cold" "hot"]]⟩,
        ⟨soup "cold" "cold" "cold", [[]]⟩] := by
    intro hnever
    have hway := hnever.ways_distinct _ List.mem_cons_self _ List.mem_cons_self
    exact (List.nodup_cons.mp hway).1 (by simp [ofMixtures, hsame])
  have hdiverges := hends.diverges_of_return hreturn
  exact ⟨hends, hdiverges.ne_ok, hdiverges⟩

end Simmer.RuleSystem
