import Simmer.Proofs.Mixture.Multiset
import Simmer.Proofs.Reduction.Component

/-!
Reducing a mixture again. A reduced mixture is left by every rule as the multiset it is, but a
component rule may still permute its components. Such a rule runs in a circle on any component
that it moves, so a second reduction, which takes the components alone first, diverges there;
where no component is moved, it returns the mixture itself.
-/
namespace Simmer.RuleSystem

/-- Every component rule leaves every component of the mixture as it is. -/
def Still (s : RuleSystem) (m : Mixture) : Prop :=
  ∀ r, .component r ∈ s.rules → ∀ c ∈ m.components, r.image s.oracle c = c

variable {s : RuleSystem} {m v : Mixture} {oracle : Oracle}

theorem applies_image (oracle : Oracle) (r : ComponentRule) (c : Component) :
    (Rewriting.ofComponents oracle).Applies (.component r) c (r.image oracle c) :=
  r.outcome_eq_image oracle c

theorem settles_component_iff {r : ComponentRule} {c : Component} :
    (Rewriting.ofComponents oracle).Settles (.component r) c 0 c ↔ r.image oracle c = c := by
  constructor
  · intro h
    obtain ⟨next, hnext, hkey⟩ := h.exists_applies
    obtain rfl := (applies_image oracle r c).unique hnext
    exact hkey.mp rfl
  · intro h
    exact .still (applies_image oracle r c) h

/-- A component rule settles a mixture at once when it only permutes the components. -/
theorem perm_of_settles {r : ComponentRule}
    (h : (Rewriting.ofMixtures oracle).Settles (.component r) m 0 m) :
    (m.components.map (r.image oracle)).Perm m.components := by
  have happly : (Rewriting.ofMixtures oracle).Applies (.component r) m
      ⟨m.components.map (r.image oracle)⟩ := Rule.outcome_applyMixture_component oracle r m
  obtain ⟨next, hnext, hkey⟩ := h.exists_applies
  obtain rfl := happly.unique hnext
  exact Mixture.key_eq_iff_perm.mp (hkey.mp rfl)

/-- On components that it permutes, a rule that moves one of them never comes to rest there. -/
theorem eq_zero_of_settles {r : ComponentRule} {cs : List Component}
    (hperm : (cs.map (r.image oracle)).Perm cs) {c d : Component} {n : Nat}
    (h : (Rewriting.ofComponents oracle).Settles (.component r) c n d) (hc : c ∈ cs) : n = 0 := by
  induction h with
  | still => rfl
  | @moves c next d n happly hne hrest ih =>
    obtain rfl := (applies_image oracle r c).unique happly
    have hnext : r.image oracle c ∈ cs := Component.image_mem_of_perm hperm hc
    obtain rfl := ih hnext
    -- The last component moved and the one it is moved to have one image.
    obtain rfl := hrest.eq_of_zero
    have hfixed := settles_component_iff.mp hrest
    exact absurd (Component.eq_of_image_eq hperm hnext hc hfixed) hne

theorem quiet_of_passes {rules : List Rule} {cs : List Component}
    (hperm : ∀ rule ∈ rules, ∃ r, rule = .component r ∧ (cs.map (r.image oracle)).Perm cs)
    {c d : Component} {counts : List Nat}
    (h : (Rewriting.ofComponents oracle).Passes rules c counts d) (hc : c ∈ cs) :
    Rewriting.Quiet counts := by
  induction h with
  | nil => simp [Rewriting.Quiet]
  | cons hsettles _ ih =>
    obtain ⟨hfirst, hrest⟩ := List.forall_mem_cons.mp hperm
    obtain ⟨r, rfl, hr⟩ := hfirst
    obtain rfl := eq_zero_of_settles hr hsettles hc
    obtain rfl := hsettles.eq_of_zero
    exact Rewriting.quiet_cons.mpr ⟨rfl, ih hrest hc⟩

theorem settled_of_reduceMixture (h : (s.reduceMixture m).outcome = .ok v) :
    ∀ rule ∈ s.rules, (Rewriting.ofMixtures s.oracle).Settles rule v 0 v := by
  obtain ⟨components, -, hdrive⟩ := reduceMixture_eq_ok_iff.mp h
  obtain ⟨log, hlog, -⟩ := Rewriting.reduces_of_drive hdrive
  exact hlog.settled

/-- Where every rule leaves the multiset, a component that is reduced alone is not moved. -/
theorem image_eq_of_reduceComponent
    (hsettled : ∀ rule ∈ s.rules, (Rewriting.ofMixtures s.oracle).Settles rule v 0 v)
    {c d : Component} (hc : c ∈ v.components) (h : (s.reduceComponent c).outcome = .ok d)
    {r : ComponentRule} (hr : .component r ∈ s.rules) : r.image s.oracle c = c := by
  have hperm : ∀ rule ∈ s.rules.filter Rule.isComponent, ∃ r, rule = .component r ∧
      (v.components.map (r.image s.oracle)).Perm v.components := by
    intro rule hrule
    obtain ⟨hmem, hkind⟩ := List.mem_filter.mp hrule
    cases rule with
    | component r => exact ⟨r, rfl, perm_of_settles (hsettled _ hmem)⟩
    | mixture r => cases hkind
  obtain ⟨log, hlog, -⟩ := reduceComponent_eq_ok_iff.mp h
  have hmem : .component r ∈ s.rules.filter Rule.isComponent := List.mem_filter.mpr ⟨hr, rfl⟩
  have hpass : ∃ next counts, (Rewriting.ofComponents s.oracle).Passes
      (s.rules.filter Rule.isComponent) c counts next := by
    cases hlog with
    | last hpass => exact ⟨_, _, hpass⟩
    | more hpass => exact ⟨_, _, hpass⟩
  obtain ⟨next, counts, hpass⟩ := hpass
  obtain ⟨-, hstill⟩ := hpass.of_quiet (quiet_of_passes hperm hpass hc)
  exact settles_component_iff.mp (hstill _ hmem)

theorem reduceComponent_of_still (hstill : s.Still v) {c : Component} (hc : c ∈ v.components) :
    (s.reduceComponent c).outcome = .ok c := by
  apply Rewriting.drive_of_settled
  intro rule hrule
  obtain ⟨hmem, hkind⟩ := List.mem_filter.mp hrule
  cases rule with
  | component r => exact settles_component_iff.mpr (hstill r hmem c hc)
  | mixture r => cases hkind

theorem mapM_reduceComponent_of_still (hstill : s.Still v) :
    v.components.mapM (fun c => (s.reduceComponent c).outcome) = .ok v.components := by
  rw [Outcome.mapM_eq_ok_iff]
  exact List.forall₂_same.mpr fun c hc => reduceComponent_of_still hstill hc

/-- A still mixture that every rule leaves as a multiset comes back as it is. -/
theorem reduceMixture_of_still
    (hsettled : ∀ rule ∈ s.rules, (Rewriting.ofMixtures s.oracle).Settles rule v 0 v)
    (hstill : s.Still v) : (s.reduceMixture v).outcome = .ok v := by
  rw [reduceMixture_eq_ok_iff]
  exact ⟨v.components, mapM_reduceComponent_of_still hstill, Rewriting.drive_of_settled hsettled⟩

theorem reduceMixture_ok_or_diverges (s : RuleSystem) (m : Mixture) :
    (∃ v, (s.reduceMixture m).outcome = .ok v) ∨
      Rewriting.Diverges s.cap (s.reduceMixture m).outcome := by
  rw [outcome_reduceMixture]
  cases hall : m.components.mapM fun c => (s.reduceComponent c).outcome with
  | ok components =>
    exact Rewriting.drive_ok_or_diverges fun rule _ m => rule.exists_applyMixture s.oracle m
  | error fault =>
    obtain ⟨c, -, hfault⟩ := Outcome.exists_of_mapM_eq_error hall
    rcases reduceComponent_ok_or_diverges s c with ⟨d, hd⟩ | ⟨rule, state, hdiverges⟩
    · rw [hfault] at hd
      cases hd
    · obtain rfl := Except.error.inj (hfault.symm.trans hdiverges)
      exact Or.inr ⟨rule, state, rfl⟩

/-- A mixture with a component that is moved diverges, though every rule leaves its multiset. -/
theorem reduceMixture_of_moved
    (hsettled : ∀ rule ∈ s.rules, (Rewriting.ofMixtures s.oracle).Settles rule v 0 v)
    (hmoved : ¬ s.Still v) : Rewriting.Diverges s.cap (s.reduceMixture v).outcome := by
  rcases reduceMixture_ok_or_diverges s v with ⟨w, hw⟩ | hdiverges
  · obtain ⟨components, hall, -⟩ := reduceMixture_eq_ok_iff.mp hw
    apply absurd _ hmoved
    intro r hr c hc
    obtain ⟨d, -, hd⟩ := Outcome.exists_of_mem_of_mapM hall hc
    exact image_eq_of_reduceComponent hsettled hc hd hr
  · exact hdiverges

/-- Puts the first two modifiers the other way round. -/
def twist : ComponentRule where
  lhs := .plain ⟨[], .loose,
    [.var .modifier "1" none, .var .modifier "2" none, .var .ingredient "1" none]⟩
  rhs := ⟨[.var .modifier "2" none, .var .modifier "1" none, .var .ingredient "1" none]⟩
  closed := by decide

/-- Two components, each the other one twisted. -/
def twins : Mixture :=
  ⟨[⟨["hot", "cold", "Onion"]⟩, ⟨["cold", "hot", "Onion"]⟩]⟩

def pour : MixtureRule where
  reactants := ⟨[.plain ⟨[], .loose, [.constant "Water"]⟩]⟩
  products := [⟨[.constant "hot", .constant "cold", .constant "Onion"]⟩,
    ⟨[.constant "cold", .constant "hot", .constant "Onion"]⟩]
  closed := by decide

def water : Mixture :=
  ⟨[⟨["Water"]⟩]⟩

def twisting : RuleSystem :=
  ⟨[.component twist, .mixture pour], .plain ["Onion", "Water"], defaultCap⟩

theorem settles_twins :
    ∀ rule ∈ twisting.rules, (Rewriting.ofMixtures twisting.oracle).Settles rule twins 0 twins := by
  have htwist : (Rewriting.ofMixtures twisting.oracle).Applies (.component twist) twins
      ⟨twins.components.map (twist.image twisting.oracle)⟩ :=
    Rule.outcome_applyMixture_component twisting.oracle twist twins
  have hpour : (Rewriting.ofMixtures twisting.oracle).Applies (.mixture pour) twins twins := by
    change (pour.apply twisting.oracle twins).outcome = .ok twins
    rw [MixtureRule.outcome_apply]
    rfl
  have hswap : (twins.components.map (twist.image twisting.oracle)).Perm twins.components :=
    List.Perm.swap _ _ []
  refine List.forall_mem_cons.mpr ⟨.still htwist (Mixture.key_eq_iff_perm.mpr hswap), ?_⟩
  exact List.forall_mem_singleton.mpr (.still hpour rfl)

theorem reduceMixture_water : (twisting.reduceMixture water).outcome = .ok twins := by
  have hstill : twisting.Still water := by
    intro r hr c hc
    obtain rfl : r = twist := by simpa [twisting] using hr
    obtain rfl := List.mem_singleton.mp hc
    rfl
  have hkey : twins.key ≠ water.key := by
    intro heq
    have hlength := (Mixture.key_eq_iff_perm.mp heq).length_eq
    exact absurd hlength (by decide)
  have htwist : (Rewriting.ofMixtures twisting.oracle).Settles (.component twist) water 0 water :=
    .still (Rule.outcome_applyMixture_component twisting.oracle twist water) rfl
  have hpour : (Rewriting.ofMixtures twisting.oracle).Applies (.mixture pour) water twins := by
    change (pour.apply twisting.oracle water).outcome = .ok twins
    rw [MixtureRule.outcome_apply]
    rfl
  have hcap : 1 < twisting.cap := by decide
  have hdrive := Rewriting.drive_of_last_change (List.forall_mem_singleton.mpr htwist) hpour hkey
    settles_twins hcap
  exact reduceMixture_eq_ok_iff.mpr
    ⟨water.components, mapM_reduceComponent_of_still hstill, hdrive⟩

theorem not_still_twins : ¬ twisting.Still twins := by
  intro h
  have hmoved := h twist (by simp [twisting]) ⟨["hot", "cold", "Onion"]⟩ (by simp [twins])
  have himage : twist.image twisting.oracle ⟨["hot", "cold", "Onion"]⟩ =
      ⟨["cold", "hot", "Onion"]⟩ := rfl
  rw [himage] at hmoved
  exact absurd hmoved (by decide)

/-- Reducing a reduced mixture again gives it back, and not only as a multiset, exactly when
it is still. Otherwise the second reduction diverges. -/
theorem reduceMixture_idempotent_iff_still (h : (s.reduceMixture m).outcome = .ok v) :
    ((∃ w, (s.reduceMixture v).outcome = .ok w ∧ w.same v = true) ↔ s.Still v) ∧
      ((s.reduceMixture v).outcome = .ok v ↔ s.Still v) ∧
      (Rewriting.Diverges s.cap (s.reduceMixture v).outcome ↔ ¬ s.Still v) := by
  have hsettled := settled_of_reduceMixture h
  have hsame : v.same v = true := Mixture.same_iff_perm.mpr (List.Perm.refl _)
  by_cases hstill : s.Still v
  · have hok := reduceMixture_of_still hsettled hstill
    refine ⟨iff_of_true ⟨v, hok, hsame⟩ hstill, iff_of_true hok hstill, ?_⟩
    exact iff_of_false (fun hdiverges => hdiverges.ne_ok hok) (not_not_intro hstill)
  · have hdiverges := reduceMixture_of_moved hsettled hstill
    refine ⟨iff_of_false ?_ hstill, iff_of_false hdiverges.ne_ok hstill,
      iff_of_true hdiverges hstill⟩
    intro hagain
    obtain ⟨w, hw, -⟩ := hagain
    exact hdiverges.ne_ok hw

/-- The twins stay twins when their multiset is looked at, and each alone runs in a circle. -/
theorem reduceMixture_idempotent_iff_still_twins :
    (twisting.reduceMixture water).outcome = .ok twins ∧
      Rewriting.Diverges twisting.cap (twisting.reduceMixture twins).outcome := by
  refine ⟨reduceMixture_water, ?_⟩
  exact (reduceMixture_idempotent_iff_still reduceMixture_water).2.2.mpr not_still_twins

/-- Reducing a reduced mixture again may fail. -/
theorem reduceMixture_not_idempotent :
    (twisting.reduceMixture water).outcome = .ok twins ∧
      ¬ ∃ w, (twisting.reduceMixture twins).outcome = .ok w ∧ w.same twins = true := by
  refine ⟨reduceMixture_water, ?_⟩
  intro h
  obtain ⟨w, hw, -⟩ := h
  exact (reduceMixture_of_moved settles_twins not_still_twins).ne_ok hw

end Simmer.RuleSystem
