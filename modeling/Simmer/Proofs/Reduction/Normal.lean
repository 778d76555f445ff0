import Simmer.Proofs.Reduction.Idempotence

/-!
Normal forms. A component is normal when every rule returns it, and a mixture when every rule
returns its multiset. What the engine reduces a value to is normal; and it returns a mixture as
it stands, order included, when the components are normal one by one and no mixture rule changes
the multiset. The cap plays no part in this: the first pass always takes place.
-/
namespace Simmer.RuleSystem

/-- Every rule returns the component itself. -/
def NormalComponent (s : RuleSystem) (c : Component) : Prop :=
  ∀ rule ∈ s.rules, (rule.applyComponent s.oracle c).outcome = .ok c

/-- Every rule, component rules on all components at once, returns the same multiset. -/
def NormalMixture (s : RuleSystem) (m : Mixture) : Prop :=
  ∀ rule ∈ s.rules, ∃ w, (rule.applyMixture s.oracle m).outcome = .ok w ∧ w.same m = true

variable {s : RuleSystem} {c v : Component} {m w : Mixture}

/-- Mixture rules leave every component, so only component rules count. -/
theorem normalComponent_iff :
    s.NormalComponent c ↔ ∀ rule ∈ s.rules.filter Rule.isComponent,
      (Rewriting.ofComponents s.oracle).Settles rule c 0 c := by
  constructor
  · intro h rule hrule
    exact .still (h rule (List.mem_of_mem_filter hrule)) rfl
  · intro h rule hrule
    cases rule with
    | component r =>
      obtain ⟨next, hnext, hkey⟩ :=
        (h (.component r) (List.mem_filter.mpr ⟨hrule, rfl⟩)).exists_applies
      obtain rfl : next = c := hkey.mp rfl
      exact hnext
    | mixture r => rfl

theorem normalMixture_iff :
    s.NormalMixture m ↔ ∀ rule ∈ s.rules, (Rewriting.ofMixtures s.oracle).Settles rule m 0 m := by
  constructor
  · intro h rule hrule
    obtain ⟨w, hw, hsame⟩ := h rule hrule
    exact .still hw (beq_iff_eq.mp hsame)
  · intro h rule hrule
    obtain ⟨next, hnext, hkey⟩ := (h rule hrule).exists_applies
    exact ⟨next, hnext, beq_iff_eq.mpr (hkey.mp rfl)⟩

theorem normalComponent_of_reduceComponent (h : (s.reduceComponent c).outcome = .ok v) :
    s.NormalComponent v := by
  obtain ⟨log, hlog, -⟩ := reduceComponent_eq_ok_iff.mp h
  exact normalComponent_iff.mpr hlog.settled

theorem reduceComponent_of_normal (h : s.NormalComponent c) :
    (s.reduceComponent c).outcome = .ok c :=
  Rewriting.drive_of_settled (normalComponent_iff.mp h)

theorem normalMixture_of_reduceMixture (h : (s.reduceMixture m).outcome = .ok w) :
    s.NormalMixture w :=
  normalMixture_iff.mpr (settled_of_reduceMixture h)

/-- A component rule that returns each component returns the mixture. -/
theorem applyMixture_of_fixed {r : ComponentRule}
    (h : ∀ c ∈ m.components, (r.apply s.oracle c).outcome = .ok c) :
    ((Rule.component r).applyMixture s.oracle m).outcome = .ok m := by
  have hmap : m.components.map (r.image s.oracle) = m.components := by
    rw [List.map_congr_left fun c hc => Except.ok.inj
      ((r.outcome_eq_image s.oracle c).symm.trans (h c hc)), List.map_id']
  rw [Rule.outcome_applyMixture_component, hmap]

theorem still_of_normal (h : ∀ c ∈ m.components, s.NormalComponent c) : s.Still m := by
  intro r hr c hc
  exact settles_component_iff.mp (normalComponent_iff.mp (h c hc) _ (List.mem_filter.mpr ⟨hr, rfl⟩))

theorem reduceMixture_of_normal (hcomponents : ∀ c ∈ m.components, s.NormalComponent c)
    (hmixtures : ∀ r, .mixture r ∈ s.rules →
      ∃ w, (r.apply s.oracle m).outcome = .ok w ∧ w.same m = true) :
    (s.reduceMixture m).outcome = .ok m := by
  apply reduceMixture_of_still (normalMixture_iff.mp _) (still_of_normal hcomponents)
  intro rule hrule
  cases rule with
  | component r =>
    exact ⟨m, applyMixture_of_fixed fun c hc => hcomponents c hc _ hrule,
      Mixture.same_iff_perm.mpr (List.Perm.refl _)⟩
  | mixture r => exact hmixtures r hrule

/-- What the engine returns is normal, and a normal component comes back from it. A mixture of
normal components whose multiset no mixture rule changes comes back with its order. -/
theorem reduced_is_normal_and_normal_is_kept (s : RuleSystem) :
    (∀ c v, (s.reduceComponent c).outcome = .ok v →
      s.NormalComponent v ∧ (s.reduceComponent v).outcome = .ok v) ∧
    (∀ m w, (s.reduceMixture m).outcome = .ok w → s.NormalMixture w) ∧
    (∀ m : Mixture, (∀ c ∈ m.components, s.NormalComponent c) →
      (∀ r, .mixture r ∈ s.rules → ∃ w, (r.apply s.oracle m).outcome = .ok w ∧ w.same m = true) →
        (s.reduceMixture m).outcome = .ok m) := by
  refine ⟨fun c v h => ?_, fun m w => normalMixture_of_reduceMixture,
    fun m => reduceMixture_of_normal⟩
  have hnormal := normalComponent_of_reduceComponent h
  exact ⟨hnormal, reduceComponent_of_normal hnormal⟩

/-- Two helpings of salt are one. -/
def season : ComponentRule where
  lhs := .plain ⟨[⟨"1", none⟩], .loose,
    [.constant "salty", .constant "salty", .var .ingredient "1" none]⟩
  rhs := ⟨[.var .collector "1" none, .constant "salty", .var .ingredient "1" none]⟩
  closed := by decide

/-- Takes an onion out of a mixture and puts it back in front. -/
def stir : MixtureRule where
  reactants := ⟨[.plain ⟨[], .loose, [.constant "Onion"]⟩]⟩
  products := [⟨[.constant "Onion"]⟩]
  closed := by decide

/-- Seasoning and stirring under a cap. -/
def kitchen (cap : Nat) : RuleSystem :=
  ⟨[.component season, .mixture stir], .plain ["Onion", "Water"], cap⟩

/-- The only component rule changes the component once and leaves what it has made. -/
theorem reduceComponent_of_one_change {s : RuleSystem} {r : ComponentRule} {c d : Component}
    (hrules : s.rules.filter Rule.isComponent = [.component r])
    (hfirst : r.image s.oracle c = d) (hmoved : d ≠ c) (hsecond : r.image s.oracle d = d)
    (hcap : 1 < s.cap) : (s.reduceComponent c).outcome = .ok d := by
  have happly := hfirst ▸ applies_image s.oracle r c
  have hstill := settles_component_iff.mpr hsecond
  apply reduceComponent_eq_ok_iff.mpr
  rw [hrules]
  refine ⟨[[1], [0]], .more (.cons (.moves happly hmoved hstill) (.nil _)) ?_
    (.last (.cons hstill (.nil _)) ?_), ⟨?_, ?_⟩⟩
  · simp [Rewriting.Quiet]
  · simp [Rewriting.Quiet]
  · simp only [List.length_cons, List.length_nil]
    omega
  · simp only [List.forall_mem_cons, List.not_mem_nil, false_implies, implies_true, and_true]
    omega

theorem reduceComponent_salty :
    ((kitchen 2).reduceComponent ⟨["salty", "hot", "salty", "Onion"]⟩).outcome =
      .ok ⟨["hot", "salty", "Onion"]⟩ :=
  reduceComponent_of_one_change (r := season) rfl rfl (by decide) rfl (by decide)

/-- Stirring turns the two components round, and the mixture still comes back as it was. -/
theorem reduced_is_normal_and_normal_is_kept_kitchen :
    (kitchen 2).NormalComponent ⟨["hot", "salty", "Onion"]⟩ ∧
      twisting.NormalMixture twins ∧
      (stir.apply (kitchen 0).oracle ⟨[⟨["Water"]⟩, ⟨["Onion"]⟩]⟩).outcome =
        .ok ⟨[⟨["Onion"]⟩, ⟨["Water"]⟩]⟩ ∧
      ((kitchen 0).reduceMixture ⟨[⟨["Water"]⟩, ⟨["Onion"]⟩]⟩).outcome =
        .ok ⟨[⟨["Water"]⟩, ⟨["Onion"]⟩]⟩ := by
  have hstir : (stir.apply (kitchen 0).oracle ⟨[⟨["Water"]⟩, ⟨["Onion"]⟩]⟩).outcome =
      .ok ⟨[⟨["Onion"]⟩, ⟨["Water"]⟩]⟩ := by
    rw [MixtureRule.outcome_apply]
    rfl
  refine ⟨((reduced_is_normal_and_normal_is_kept (kitchen 2)).1 _ _ reduceComponent_salty).1,
    (reduced_is_normal_and_normal_is_kept twisting).2.1 _ _ reduceMixture_water, hstir, ?_⟩
  apply (reduced_is_normal_and_normal_is_kept (kitchen 0)).2.2
  · intro c hc
    apply normalComponent_iff.mpr
    intro rule hrule
    obtain rfl : rule = .component season := List.mem_singleton.mp hrule
    apply settles_component_iff.mpr
    rcases List.mem_pair.mp hc with rfl | rfl
    · rfl
    · rfl
  · intro r hr
    obtain rfl : r = stir := by simpa [kitchen] using hr
    exact ⟨_, hstir, Mixture.same_iff_perm.mpr (List.Perm.swap _ _ [])⟩

end Simmer.RuleSystem
