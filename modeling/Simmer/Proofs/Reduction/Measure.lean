import Simmer.Proofs.Reduction.Normal
import Mathlib.Algebra.Order.BigOperators.Group.List
import Mathlib.Algebra.Order.Ring.Nat

/-!
Rules that make a measure smaller. Where every change of a state lowers a number that the state
determines, a state never comes back, and the number bounds the changes of each rule as well as
the passes in which something changes. So a cap above the measure of a mixture is never reached:
the mixture is reduced, and its measure has not grown.
-/
namespace Simmer.Rewriting

variable {α κ : Type}

section behind

variable {r : Rewriting α κ} {x : α} [BEq κ] [Hashable κ]

/-- Every state seen comes to the same end as the present one, but needs more for it. What
`run` counts tells how much a state needs. -/
def Behind (r : Rewriting α κ) (run : α → Nat → Prop) (seen : Std.HashSet κ) (n : Nat) : Prop :=
  ∀ k ∈ seen, ∃ earlier m, r.key earlier = k ∧ n < m ∧ run earlier m

theorem behind_empty (run : α → Nat → Prop) (n : Nat) : r.Behind run ∅ n := by
  intro k hk
  simp at hk

variable {run : α → Nat → Prop} {seen : Std.HashSet κ} {n : Nat}

/-- Where the key of a state determines what it needs, the present one is none of those behind
it. -/
theorem Behind.not_mem (hseen : r.Behind run seen n)
    (hunique : ∀ y m, r.key y = r.key x → run y m → m = n) : r.key x ∉ seen := by
  intro hmem
  obtain ⟨earlier, m, hkey, hlt, hrun⟩ := hseen _ hmem
  have heq := hunique earlier m hkey hrun
  omega

/-- A step on leaves the present state behind as well. -/
theorem Behind.insert [LawfulBEq κ] [LawfulHashable κ] {m : Nat} (hseen : r.Behind run seen m)
    (h : run x m) (hlt : n < m) : r.Behind run (seen.insert (r.key x)) n := by
  intro k hk
  rcases Std.HashSet.mem_insert.mp hk with heq | hold
  · exact ⟨x, m, by simpa using heq, hlt, h⟩
  · obtain ⟨earlier, l, hearlier, hl, hrun⟩ := hseen k hold
    exact ⟨earlier, l, hearlier, by omega, hrun⟩

end behind

/-- Values that are one state measure the same, and what changes a state lowers its measure. -/
structure Lowers (r : Rewriting α κ) (rules : List Rule) (μ : α → Nat) : Prop where
  eq_of_key_eq : ∀ x y, r.key x = r.key y → μ x = μ y
  lt_of_applies : ∀ rule ∈ rules, ∀ x y, r.Applies rule x y → r.key y ≠ r.key x → μ y < μ x

namespace Lowers

variable {r : Rewriting α κ} {limit : Nat} {rule : Rule} {rules : List Rule} {μ : α → Nat} {x : α}

theorem of_subset {others : List Rule} (h : r.Lowers rules μ) (hsub : others ⊆ rules) :
    r.Lowers others μ :=
  ⟨h.eq_of_key_eq, fun rule hrule => h.lt_of_applies rule (hsub hrule)⟩

variable [BEq κ] [Hashable κ]

/-- A state with less than all that were seen is a new one. -/
theorem not_mem (h : r.Lowers rules μ) {seen : Std.HashSet κ}
    (hseen : r.Behind (fun y n => μ y = n) seen (μ x)) : r.key x ∉ seen :=
  hseen.not_mem fun y _ hkey hn => hn.symm.trans (h.eq_of_key_eq y x hkey)

variable [LawfulBEq κ] [LawfulHashable κ]

/-- A rule settles a value whose measure is within what is left of the limit. -/
theorem settle (h : r.Lowers rules μ) (hrule : rule ∈ rules)
    (htotal : ∀ x, ∃ next, r.Applies rule x next) {spare : Nat} {moved : Bool}
    {seen : Std.HashSet κ} (hspare : μ x ≤ spare)
    (hseen : r.Behind (fun y n => μ y = n) seen (μ x)) :
    ∃ y, (r.settle limit rule spare moved seen x).outcome = .ok (y, moved) ∧ y = x ∨
      (r.settle limit rule spare moved seen x).outcome = .ok (y, true) ∧ μ y < μ x := by
  induction spare generalizing x moved seen with
  | zero =>
    obtain ⟨next, hnext⟩ := htotal x
    by_cases hkey : r.key next = r.key x
    · exact ⟨x, Or.inl ⟨settle_of_still (.still hnext hkey), rfl⟩⟩
    · have hlt := h.lt_of_applies rule hrule x next hnext hkey
      omega
  | succ spare ih =>
    obtain ⟨next, hnext⟩ := htotal x
    by_cases hkey : r.key next = r.key x
    · exact ⟨x, Or.inl ⟨settle_of_still (.still hnext hkey), rfl⟩⟩
    · have hlt := h.lt_of_applies rule hrule x next hnext hkey
      rw [Rewriting.settle, step_of_new hnext hkey (h.not_mem hseen)]
      obtain ⟨y, ⟨hy, rfl⟩ | ⟨hy, hless⟩⟩ := ih (by omega) (hseen.insert rfl hlt)
      · exact ⟨y, Or.inr ⟨hy, hlt⟩⟩
      · exact ⟨y, Or.inr ⟨hy, by omega⟩⟩

/-- A pass that changes something lowers the measure. -/
theorem pass (h : r.Lowers rules μ)
    (htotal : ∀ rule ∈ rules, ∀ x, ∃ next, r.Applies rule x next) (hlimit : μ x < limit) :
    ∃ y changed, (r.pass limit rules x).outcome = .ok (y, changed) ∧
      (changed = none ∧ y = x ∨ changed ≠ none ∧ μ y < μ x) := by
  induction rules generalizing x with
  | nil => exact ⟨x, none, rfl, Or.inl ⟨rfl, rfl⟩⟩
  | cons rule rules ih =>
    obtain ⟨hfirst, hrest⟩ := List.forall_mem_cons.mp htotal
    have hothers : r.Lowers rules μ := h.of_subset (List.subset_cons_self rule rules)
    obtain ⟨y, ⟨hy, rfl⟩ | ⟨hy, hlt⟩⟩ :
        ∃ y, (r.settle limit rule (limit - 1) false ∅ x).outcome = .ok (y, false) ∧ y = x ∨
          (r.settle limit rule (limit - 1) false ∅ x).outcome = .ok (y, true) ∧ μ y < μ x :=
      h.settle List.mem_cons_self hfirst (Nat.le_sub_one_of_lt hlimit) (behind_empty _ (μ x))
    · obtain ⟨z, changed, hz, hcases⟩ := ih hothers hrest hlimit
      refine ⟨z, changed, ?_, hcases⟩
      rw [pass_cons hy hz]
      cases changed <;> rfl
    · obtain ⟨z, changed, hz, hcases⟩ := ih hothers hrest (hlt.trans hlimit)
      refine ⟨z, changed <|> some rule, pass_cons hy hz, Or.inr ?_⟩
      rcases hcases with ⟨rfl, rfl⟩ | ⟨hchanged, hless⟩
      · exact ⟨by simp, hlt⟩
      · exact ⟨by cases changed <;> simp_all, by omega⟩

/-- Passes go on until one changes nothing, and what is left of the limit suffices for them. -/
theorem passes (h : r.Lowers rules μ)
    (htotal : ∀ rule ∈ rules, ∀ x, ∃ next, r.Applies rule x next) {spare done : Nat}
    {seen : Std.HashSet κ} {last : Option Rule} (hspare : μ x ≤ spare) (hlimit : μ x < limit)
    (hseen : r.Behind (fun y n => μ y = n) seen (μ x)) :
    ∃ v, (r.passes limit rules spare done seen last x).outcome = .ok v ∧ μ v ≤ μ x := by
  induction spare generalizing x done seen last with
  | zero =>
    obtain ⟨y, changed, hy, ⟨rfl, rfl⟩ | ⟨-, hlt⟩⟩ := h.pass htotal hlimit
    · refine ⟨y, ?_, Nat.le_refl _⟩
      rw [Rewriting.passes, outcome_round (h.not_mem hseen), hy]
      rfl
    · omega
  | succ spare ih =>
    obtain ⟨y, changed, hy, ⟨rfl, rfl⟩ | ⟨hchanged, hlt⟩⟩ := h.pass htotal hlimit
    · refine ⟨y, ?_, Nat.le_refl _⟩
      rw [Rewriting.passes, outcome_round (h.not_mem hseen), hy]
      rfl
    · obtain ⟨rule, rfl⟩ := Option.ne_none_iff_exists'.mp hchanged
      obtain ⟨v, hv, hle⟩ : ∃ v, (r.passes limit rules spare (done + 1)
          (seen.insert (r.key x)) (some rule) y).outcome = .ok v ∧ μ v ≤ μ y :=
        ih (by omega) (by omega) (hseen.insert rfl hlt)
      refine ⟨v, ?_, by omega⟩
      rw [Rewriting.passes, outcome_round (h.not_mem hseen), hy]
      exact hv

/-- A value whose measure is below the limit is reduced, and its measure does not grow. -/
theorem drive (h : r.Lowers rules μ)
    (htotal : ∀ rule ∈ rules, ∀ x, ∃ next, r.Applies rule x next) (hlimit : μ x < limit) :
    ∃ v, (r.drive limit rules x).outcome = .ok v ∧ μ v ≤ μ x :=
  h.passes htotal (by omega) hlimit (behind_empty _ (μ x))

end Lowers

end Simmer.Rewriting

namespace Simmer

/-- The measures of all components together. -/
def Mixture.weight (μ : Component → Nat) (m : Mixture) : Nat :=
  (m.components.map μ).sum

namespace Mixture

variable {μ : Component → Nat}

theorem weight_eq_of_key_eq {a b : Mixture} (h : a.key = b.key) : a.weight μ = b.weight μ :=
  ((key_eq_iff_perm.mp h).map μ).sum_nat

theorem le_weight {m : Mixture} {c : Component} (hc : c ∈ m.components) : μ c ≤ m.weight μ :=
  List.le_sum_of_mem (List.mem_map_of_mem hc)

/-- Components that are replaced one by one, each by one that measures no more. -/
theorem weight_le_of_mapM {ε : Type} {f : Component → Except ε Component}
    {cs ds : List Component} (h : cs.mapM f = .ok ds)
    (hle : ∀ c ∈ cs, ∀ d, f c = .ok d → μ d ≤ μ c) : weight μ ⟨ds⟩ ≤ weight μ ⟨cs⟩ := by
  have hall := Outcome.mapM_eq_ok_iff.mp h
  clear h
  induction hall with
  | nil => exact Nat.le_refl _
  | cons hd _ ih =>
    obtain ⟨hfirst, hrest⟩ := List.forall_mem_cons.mp hle
    have htail := ih hrest
    simp only [weight, List.map_cons, List.sum_cons] at htail ⊢
    exact Nat.add_le_add (hfirst _ hd) htail

end Mixture

namespace RuleSystem

variable {s : RuleSystem} {μ : Component → Nat}

theorem lowers_components
    (hcomponents : ∀ r, .component r ∈ s.rules → ∀ c d, (r.apply s.oracle c).outcome = .ok d →
      d ≠ c → μ d < μ c) :
    (Rewriting.ofComponents s.oracle).Lowers (s.rules.filter Rule.isComponent) μ where
  eq_of_key_eq _ _ := congrArg μ
  lt_of_applies rule hrule c d happly hne := by
    obtain ⟨hmem, hkind⟩ := List.mem_filter.mp hrule
    cases rule with
    | component r => exact hcomponents r hmem c d happly hne
    | mixture r => cases hkind

/-- On all components at once, a component rule that changes the multiset changes some component,
and raises the measure of none. -/
theorem weight_map_lt {r : ComponentRule}
    (h : ∀ c d, (r.apply s.oracle c).outcome = .ok d → d ≠ c → μ d < μ c) {m : Mixture}
    (hne : Mixture.key ⟨m.components.map (r.image s.oracle)⟩ ≠ m.key) :
    Mixture.weight μ ⟨m.components.map (r.image s.oracle)⟩ < m.weight μ := by
  have hlt : ∀ c, r.image s.oracle c ≠ c → μ (r.image s.oracle c) < μ c := fun c =>
    h c _ (r.outcome_eq_image s.oracle c)
  obtain ⟨c, hc, hmoved⟩ : ∃ c ∈ m.components, r.image s.oracle c ≠ c := by
    by_contra hnone
    push Not at hnone
    apply hne
    rw [List.map_congr_left hnone, List.map_id']
  rw [Mixture.weight, Mixture.weight, List.map_map]
  refine List.sum_lt_sum _ _ ?_ ⟨c, hc, hlt c hmoved⟩
  intro d _
  by_cases hd : r.image s.oracle d = d
  · exact Nat.le_of_eq (congrArg μ hd)
  · exact Nat.le_of_lt (hlt d hd)

theorem lowers_mixtures
    (hcomponents : ∀ r, .component r ∈ s.rules → ∀ c d, (r.apply s.oracle c).outcome = .ok d →
      d ≠ c → μ d < μ c)
    (hmixtures : ∀ r, .mixture r ∈ s.rules → ∀ m w, (r.apply s.oracle m).outcome = .ok w →
      w.same m = false → w.weight μ < m.weight μ) :
    (Rewriting.ofMixtures s.oracle).Lowers s.rules (Mixture.weight μ) where
  eq_of_key_eq _ _ := Mixture.weight_eq_of_key_eq
  lt_of_applies rule hrule m w happly hne := by
    cases rule with
    | component r =>
      have himage : (Rewriting.ofMixtures s.oracle).Applies (.component r) m
          ⟨m.components.map (r.image s.oracle)⟩ := Rule.outcome_applyMixture_component s.oracle r m
      obtain rfl := happly.unique himage
      exact weight_map_lt (hcomponents r hrule) hne
    | mixture r => exact hmixtures r hrule m w happly (beq_eq_false_iff_ne.mpr hne)

/-- Where every change lowers the measure, a mixture whose measure is below the cap is reduced,
and its measure does not grow. -/
theorem reduceMixture_of_measure (s : RuleSystem) (μ : Component → Nat)
    (hcomponents : ∀ r, .component r ∈ s.rules → ∀ c d, (r.apply s.oracle c).outcome = .ok d →
      d ≠ c → μ d < μ c)
    (hmixtures : ∀ r, .mixture r ∈ s.rules → ∀ m w, (r.apply s.oracle m).outcome = .ok w →
      w.same m = false → w.weight μ < m.weight μ)
    (m : Mixture) (hcap : m.weight μ < s.cap) :
    ∃ v, (s.reduceMixture m).outcome = .ok v ∧ v.weight μ ≤ m.weight μ := by
  have halone : ∀ c ∈ m.components, ∃ d, (s.reduceComponent c).outcome = .ok d ∧ μ d ≤ μ c := by
    intro c hc
    exact (lowers_components hcomponents).drive (fun rule _ => exists_applies_component _ rule)
      (Nat.lt_of_le_of_lt (Mixture.le_weight hc) hcap)
  obtain ⟨ds, hds⟩ := Outcome.exists_mapM fun c hc => (halone c hc).imp fun d h => h.1
  have hstart : Mixture.weight μ ⟨ds⟩ ≤ m.weight μ := by
    apply Mixture.weight_le_of_mapM hds
    intro c hc d hd
    obtain ⟨e, he, hle⟩ := halone c hc
    rw [hd] at he
    exact Except.ok.inj he ▸ hle
  obtain ⟨v, hv, hle⟩ := (lowers_mixtures hcomponents hmixtures).drive
    (fun rule _ m => rule.exists_applyMixture s.oracle m) (Nat.lt_of_le_of_lt hstart hcap)
  refine ⟨v, ?_, hle.trans hstart⟩
  rw [reduceMixture, Run.outcome_bind, Run.outcome_mapM, hds]
  exact hv

/-- What is wet and has an onion becomes an onion. -/
def dry : ComponentRule where
  lhs := .plain ⟨[], .loose, [.constant "wet", .constant "Onion"]⟩
  rhs := ⟨[.constant "Onion"]⟩
  closed := by decide

/-- An onion and water make a soup. -/
def boil : MixtureRule where
  reactants := ⟨[.plain ⟨[], .loose, [.constant "Onion"]⟩,
    .plain ⟨[], .loose, [.constant "Water"]⟩]⟩
  products := [⟨[.constant "Soup"]⟩]
  closed := by decide

def boiling : RuleSystem :=
  ⟨[.component dry, .mixture boil], .plain ["Onion", "Water", "Soup"], 4⟩

theorem size_lt_of_dry {oracle : Oracle} {c d : Component}
    (h : (dry.apply oracle c).outcome = .ok d) (hne : d ≠ c) : d.size < c.size := by
  rw [ComponentRule.outcome_apply] at h
  cases hmatch : dry.lhs.match? oracle c with
  | none =>
    rw [hmatch] at h
    exact absurd (Except.ok.inj h).symm hne
  | some b =>
    rw [hmatch] at h
    obtain rfl : ⟨["Onion"]⟩ = d := Except.ok.inj h
    have hbody : 2 ≤ c.size := Pattern.length_body_le hmatch
    exact hbody

theorem weight_lt_of_boil {oracle : Oracle} {m w : Mixture}
    (h : (boil.apply oracle m).outcome = .ok w) (hne : w.same m = false) :
    w.weight Component.size < m.weight Component.size := by
  rw [MixtureRule.outcome_apply] at h
  cases hmatch : boil.reactants.match? oracle m with
  | none =>
    rw [hmatch] at h
    obtain rfl := Except.ok.inj h
    rw [Mixture.same_iff_perm.mpr (List.Perm.refl _)] at hne
    cases hne
  | some result =>
    rw [hmatch] at h
    obtain rfl : ⟨⟨["Soup"]⟩ :: result.leftovers.components⟩ = w := Except.ok.inj h
    obtain ⟨ps, found, -, hassigns, -, hleft⟩ := MixturePattern.match?_eq_some_iff.mp hmatch
    have hsplit := ((MixturePattern.perm_taken_without hassigns.injective hassigns.in_range).map
      Component.size).sum_nat
    have htaken : 2 ≤ ((ps.map fun i => (MixturePattern.candidate m i).1).map
        Component.size).sum := by
      have hlength : ps.length = 2 := hassigns.length_positions
      have hle := List.length_le_sum_of_one_le
        ((ps.map fun i => (MixturePattern.candidate m i).1).map Component.size)
      rw [List.length_map, List.length_map, hlength] at hle
      apply hle
      intro n hn
      obtain ⟨c, hc, rfl⟩ := List.mem_map.mp hn
      obtain ⟨i, hi, rfl⟩ := List.mem_map.mp hc
      obtain ⟨element, helement, b, hb⟩ := hassigns.exists_element hi
      have hbody : element.clause.body.length = 1 := by
        rcases List.mem_pair.mp helement with rfl | rfl
        · rfl
        · rfl
      rw [← hbody]
      exact Pattern.length_body_le hb
    rw [List.map_append, List.sum_append] at hsplit
    rw [hleft]
    change 1 + Mixture.weight Component.size (m.without ps) < m.weight Component.size
    simp only [Mixture.weight]
    omega

/-- The onion dries, and then it boils with the water. -/
theorem reduceMixture_wet_onion :
    (boiling.reduceMixture ⟨[⟨["wet", "Onion"]⟩, ⟨["Water"]⟩]⟩).outcome = .ok ⟨[⟨["Soup"]⟩]⟩ := by
  have honion : (boiling.reduceComponent ⟨["wet", "Onion"]⟩).outcome = .ok ⟨["Onion"]⟩ :=
    reduceComponent_of_one_change (r := dry) rfl rfl (by decide) rfl (by decide)
  have hwater : (boiling.reduceComponent ⟨["Water"]⟩).outcome = .ok ⟨["Water"]⟩ := by
    apply Rewriting.drive_of_settled
    intro rule hrule
    obtain rfl : rule = .component dry := List.mem_singleton.mp hrule
    exact settles_component_iff.mpr rfl
  have hcomponents : [⟨["wet", "Onion"]⟩, ⟨["Water"]⟩].mapM
      (fun c => (boiling.reduceComponent c).outcome) = .ok [⟨["Onion"]⟩, ⟨["Water"]⟩] :=
    Outcome.mapM_eq_ok_iff.mpr (.cons honion (.cons hwater .nil))
  have hdry (m : Mixture) (hm : (⟨m.components.map (dry.image boiling.oracle)⟩ : Mixture) = m) :
      (Rewriting.ofMixtures boiling.oracle).Settles (.component dry) m 0 m :=
    .still (Rule.outcome_applyMixture_component boiling.oracle dry m) (congrArg Mixture.key hm)
  have hboil : (Rewriting.ofMixtures boiling.oracle).Applies (.mixture boil)
      ⟨[⟨["Onion"]⟩, ⟨["Water"]⟩]⟩ ⟨[⟨["Soup"]⟩]⟩ := by
    change (boil.apply boiling.oracle _).outcome = _
    rw [MixtureRule.outcome_apply]
    rfl
  have hsoup : (Rewriting.ofMixtures boiling.oracle).Applies (.mixture boil)
      ⟨[⟨["Soup"]⟩]⟩ ⟨[⟨["Soup"]⟩]⟩ := by
    change (boil.apply boiling.oracle _).outcome = _
    rw [MixtureRule.outcome_apply]
    rfl
  have hkey : (⟨[⟨["Soup"]⟩]⟩ : Mixture).key ≠ (⟨[⟨["Onion"]⟩, ⟨["Water"]⟩]⟩ : Mixture).key :=
    fun heq => absurd (Mixture.key_eq_iff_perm.mp heq) (by decide)
  have hcap : 1 < boiling.cap := by decide
  have hdrive := Rewriting.drive_of_last_change (List.forall_mem_singleton.mpr (hdry _ rfl)) hboil
    hkey (List.forall_mem_cons.mpr
      ⟨hdry _ rfl, List.forall_mem_singleton.mpr (.still hsoup rfl)⟩) hcap
  exact reduceMixture_eq_ok_iff.mpr ⟨_, hcomponents, hdrive⟩

/-- Under a cap just above its three tokens, a wet onion beside water is reduced to the soup,
which has one. -/
theorem reduceMixture_of_measure_boiling :
    Mixture.weight Component.size ⟨[⟨["wet", "Onion"]⟩, ⟨["Water"]⟩]⟩ = 3 ∧ boiling.cap = 4 ∧
      (boiling.reduceMixture ⟨[⟨["wet", "Onion"]⟩, ⟨["Water"]⟩]⟩).outcome =
        .ok ⟨[⟨["Soup"]⟩]⟩ ∧
      Mixture.weight Component.size ⟨[⟨["Soup"]⟩]⟩ ≤ 3 := by
  have hmeasure := reduceMixture_of_measure boiling Component.size
    (fun r hr c d => by
      obtain rfl : r = dry := by simpa [boiling] using hr
      exact size_lt_of_dry)
    (fun r hr m w => by
      obtain rfl : r = boil := by simpa [boiling] using hr
      exact weight_lt_of_boil)
    ⟨[⟨["wet", "Onion"]⟩, ⟨["Water"]⟩]⟩ (by decide)
  obtain ⟨v, hv, hle⟩ := hmeasure
  obtain rfl := Except.ok.inj (hv.symm.trans reduceMixture_wet_onion)
  exact ⟨rfl, rfl, hv, hle⟩

end RuleSystem

end Simmer
