import Simmer.Proofs.Reduction.Origin
import Simmer.Proofs.Rule.Locality
import Simmer.Proofs.TagTable

/-!
What a reduction asks an oracle. The values of a reduction stay within the tokens of the input
and the constants of the rules, and within them two oracles that agree there make every
application alike; so the two reductions are one, with their results, faults and events. What
is registered under names of no concern to a reduction does not change it.
-/
namespace Simmer

namespace Rewriting

variable {α κ : Type}

/-- Both compare and show values alike, and apply the rules alike to values with the property,
which no application loses. -/
structure AlikeOn (r r' : Rewriting α κ) (rules : List Rule) (P : α → Prop) : Prop where
  key_eq : r.key = r'.key
  subject_eq : r.subject = r'.subject
  apply_eq : ∀ rule ∈ rules, ∀ x, P x → r.apply rule x = r'.apply rule x
  keeps : r.Keeps rules P

variable {r r' : Rewriting α κ} {limit : Nat} {rule : Rule} {rules : List Rule} {x : α}
variable {P : α → Prop}

theorem AlikeOn.mono {others : List Rule} (h : r.AlikeOn r' rules P) (hsub : others ⊆ rules) :
    r.AlikeOn r' others P :=
  ⟨h.key_eq, h.subject_eq, fun rule hrule => h.apply_eq rule (hsub hrule), h.keeps.mono hsub⟩

namespace AlikeOn

theorem diverge_congr {β : Type} (h : r.AlikeOn r' rules P) (blamed : Option Rule)
    (state : α) : (r.diverge limit blamed state : Run β) = r'.diverge limit blamed state := by
  rw [diverge, diverge, h.subject_eq]

variable [BEq κ] [Hashable κ]

theorem step_congr (h : r.AlikeOn r' rules P) (hrule : rule ∈ rules) (hx : P x)
    {moved : Bool} {seen : Std.HashSet κ} {again again' : α → Run (α × Bool)}
    (hagain : ∀ next, P next → again next = again' next) :
    r.step limit rule moved seen x again = r'.step limit rule moved seen x again' := by
  rw [step, step, ← h.apply_eq rule hrule x hx, ← h.key_eq]
  apply Run.bind_congr
  intro next hnext
  rw [hagain next (h.keeps rule hrule x next hx hnext), h.diverge_congr]

theorem settle_congr (h : r.AlikeOn r' rules P) (hrule : rule ∈ rules) (hx : P x)
    {spare : Nat} {moved : Bool} {seen : Std.HashSet κ} :
    r.settle limit rule spare moved seen x = r'.settle limit rule spare moved seen x := by
  induction spare generalizing x moved seen with
  | zero => exact h.step_congr hrule hx fun next _ => h.diverge_congr (some rule) next
  | succ spare ih =>
    rw [settle, settle, ← h.key_eq]
    exact h.step_congr hrule hx fun next hnext => ih hnext

variable [LawfulBEq κ] [LawfulHashable κ]

theorem pass_congr (h : r.AlikeOn r' rules P) (hx : P x) :
    r.pass limit rules x = r'.pass limit rules x := by
  induction rules generalizing x with
  | nil => rfl
  | cons rule rules ih =>
    have hrest := h.mono (List.subset_cons_self rule rules)
    rw [pass, pass, ← h.settle_congr List.mem_cons_self hx]
    apply Run.bind_congr
    intro settled hsettle
    obtain ⟨n, hsettles⟩ := settles_of_settle hsettle
    have hy := hsettles.keeps (h.keeps rule List.mem_cons_self) hx
    obtain ⟨y, moved⟩ := settled
    dsimp only
    rw [ih hrest hy]

theorem round_congr (h : r.AlikeOn r' rules P) (hx : P x) {done : Nat}
    {seen : Std.HashSet κ} {last : Option Rule} {again again' : Rule → α → Run α}
    (hagain : ∀ rule next, P next → again rule next = again' rule next) :
    r.round limit rules done seen last x again = r'.round limit rules done seen last x again' := by
  rw [round, round, ← h.key_eq, ← h.subject_eq, h.diverge_congr, ← h.pass_congr hx]
  split
  · rfl
  apply Run.bind_congr
  intro passed hpass
  obtain ⟨counts, hcounts⟩ := passes_of_pass hpass
  have hnext := hcounts.keeps h.keeps hx
  obtain ⟨next, changed⟩ := passed
  cases changed with
  | none => rfl
  | some rule => exact hagain rule next hnext

theorem passes_congr (h : r.AlikeOn r' rules P) (hx : P x) {spare done : Nat}
    {seen : Std.HashSet κ} {last : Option Rule} :
    r.passes limit rules spare done seen last x = r'.passes limit rules spare done seen last x := by
  induction spare generalizing x done seen last with
  | zero => exact h.round_congr hx fun rule next _ => h.diverge_congr (some rule) next
  | succ spare ih =>
    rw [passes, passes, ← h.key_eq]
    exact h.round_congr hx fun rule next hnext => ih hnext

/-- The driver does not tell the two apart when it starts with the property. -/
theorem drive_congr (h : r.AlikeOn r' rules P) (hx : P x) :
    r.drive limit rules x = r'.drive limit rules x :=
  h.passes_congr hx

end AlikeOn

end Rewriting

namespace RuleSystem

variable {rules : List Rule} {o o' : Oracle} {words : List String}

theorem written_subset (hrules : ∀ rule ∈ rules, rule.constants ⊆ words) (cap : Nat) :
    written ⟨rules, o, cap⟩ ⊆ words :=
  flatMap_subset_iff.mpr fun rule hrule =>
    flatMap_subset_iff.mpr (Rule.templates_subset (hrules rule hrule))

section congr

variable {cap : Nat} (h : o.AgreesOn o' words) (hrules : ∀ rule ∈ rules, rule.constants ⊆ words)
include h hrules

theorem alikeOn_components : (Rewriting.ofComponents o).AlikeOn (Rewriting.ofComponents o') rules
    fun c => c.tokens ⊆ words where
  key_eq := rfl
  subject_eq := rfl
  apply_eq rule hrule _ hc := rule.applyComponent_congr h (hrules rule hrule) hc
  keeps := keeps_tokens_component (s := ⟨rules, o, 0⟩) (written_subset hrules 0)

theorem alikeOn_mixtures : (Rewriting.ofMixtures o).AlikeOn (Rewriting.ofMixtures o') rules
    fun m => ∀ c ∈ m.components, c.tokens ⊆ words where
  key_eq := rfl
  subject_eq := rfl
  apply_eq rule hrule _ hm :=
    rule.applyMixture_congr h (hrules rule hrule) (Mixture.tokens_subset.mpr hm)
  keeps := keeps_tokens_mixture (s := ⟨rules, o, 0⟩) (written_subset hrules 0)

theorem reduceComponent_congr {c : Component} (hc : c.tokens ⊆ words) :
    reduceComponent ⟨rules, o, cap⟩ c = reduceComponent ⟨rules, o', cap⟩ c :=
  ((alikeOn_components h hrules).mono (List.filter_subset_self _)).drive_congr hc

theorem reduceMixture_congr {m : Mixture} (hm : m.tokens ⊆ words) :
    reduceMixture ⟨rules, o, cap⟩ m = reduceMixture ⟨rules, o', cap⟩ m := by
  have hcomponents := Mixture.tokens_subset.mp hm
  have halone : m.components.mapM (reduceComponent ⟨rules, o, cap⟩) =
      m.components.mapM (reduceComponent ⟨rules, o', cap⟩) :=
    Run.mapM_congr fun c hc => reduceComponent_congr h hrules (hcomponents c hc)
  rw [reduceMixture, reduceMixture, ← halone]
  apply Run.bind_congr
  intro components hreduced
  rw [Run.outcome_mapM] at hreduced
  have hkept := mapM_reduceComponent_keeps (s := ⟨rules, o, cap⟩)
    (alikeOn_components h hrules).keeps hcomponents hreduced
  exact (alikeOn_mixtures h hrules).drive_congr (x := ⟨components⟩) hkept

end congr

/-- The words that a reduction of the mixture may ask an oracle about: its tokens, and the
constants on both sides of the rules. -/
def vocabulary (rules : List Rule) (m : Mixture) : List String :=
  m.tokens ++ rules.flatMap Rule.constants

theorem reduceMixture_of_agreesOn {m : Mixture} (h : o.AgreesOn o' (vocabulary rules m))
    (cap : Nat) : reduceMixture ⟨rules, o, cap⟩ m = reduceMixture ⟨rules, o', cap⟩ m := by
  apply reduceMixture_congr h
  · intro rule hrule
    exact List.Subset.trans (subset_flatMap_of_mem hrule) (List.subset_append_right _ _)
  · exact List.subset_append_left _ _

end RuleSystem

namespace TagTable

variable {words : List String}

/-- Calls that tell nothing of the words change nothing that a table says of them. -/
theorem Extends.agreesOn {t t' : TagTable} {calls : List Call} (h : t.Extends calls t')
    (hbase : ∀ name ∈ words, ¬ Registers calls name)
    (htags : ∀ name ∈ words, ∀ tag, ¬ (Derives calls name tag ∨ Aliases calls tag name)) :
    t'.oracle.AgreesOn t.oracle words := by
  refine ⟨fun name hname => ?_, fun name hname tag => ?_⟩
  · rw [Bool.eq_iff_iff]
    exact (h.isBase_iff name).trans (or_iff_left (hbase name hname))
  · exact h.mem_tagsOf_iff.trans (or_iff_left (htags name hname tag))

theorem agreesOn_addIngredient (t : TagTable) {name : String} (ancestors : List String)
    (hname : name ∉ words) : (t.addIngredient name ancestors).oracle.AgreesOn t.oracle words := by
  have hother : ∀ other ∈ words, other ≠ name := fun other hmem heq => hname (heq ▸ hmem)
  apply (t.extends_perform (.ingredient name ancestors)).agreesOn
  · intro other hmem
    simp [Registers, hother other hmem]
  · intro other hmem tag
    simp [Derives, Aliases, hother other hmem]

theorem agreesOn_addAlias (t : TagTable) (tag : String) {members : List String}
    (hmembers : ∀ name ∈ members, name ∉ words) :
    (t.addAlias tag members).oracle.AgreesOn t.oracle words := by
  have hnew : ∀ name ∈ words, name ∉ members := fun name hname hmem => hmembers name hmem hname
  apply (t.extends_perform (.tagAlias tag members)).agreesOn
  · intro name _
    simp [Registers]
  · intro name hname other
    simp [Derives, Aliases, hnew name hname]

end TagTable

namespace RuleSystem

/-- The reduction of a mixture asks an oracle only about the vocabulary. Oracles that agree
there give one and the same run, and neither an ingredient that is not in the vocabulary nor an
alias without a member in it changes the reduction. -/
theorem reduceMixture_is_local (rules : List Rule) (cap : Nat) (m : Mixture) :
    (∀ o o' : Oracle, o.AgreesOn o' (vocabulary rules m) →
      reduceMixture ⟨rules, o, cap⟩ m = reduceMixture ⟨rules, o', cap⟩ m) ∧
    (∀ (t : TagTable) (name : String) (ancestors : List String), name ∉ vocabulary rules m →
      reduceMixture ⟨rules, (t.addIngredient name ancestors).oracle, cap⟩ m =
        reduceMixture ⟨rules, t.oracle, cap⟩ m) ∧
    (∀ (t : TagTable) (tag : String) (members : List String),
      (∀ name ∈ members, name ∉ vocabulary rules m) →
        reduceMixture ⟨rules, (t.addAlias tag members).oracle, cap⟩ m =
          reduceMixture ⟨rules, t.oracle, cap⟩ m) := by
  refine ⟨fun o o' h => reduceMixture_of_agreesOn h cap, ?_, ?_⟩
  · intro t name ancestors hname
    exact reduceMixture_of_agreesOn (t.agreesOn_addIngredient ancestors hname) cap
  · intro t tag members hmembers
    exact reduceMixture_of_agreesOn (t.agreesOn_addAlias tag hmembers) cap

/-- Pouring water gives the twins under a larger list of bases as well, and salt may be put on
the table, alone or under an alias. -/
theorem reduceMixture_is_local_water :
    (reduceMixture ⟨twisting.rules, .plain ["Salt", "Onion", "Water"], defaultCap⟩
        water).outcome = .ok twins ∧
      reduceMixture ⟨twisting.rules, (TagTable.empty.addIngredient "Salt" []).oracle, defaultCap⟩
          water = reduceMixture ⟨twisting.rules, TagTable.empty.oracle, defaultCap⟩ water ∧
      reduceMixture ⟨twisting.rules, (TagTable.empty.addAlias "white" ["Salt"]).oracle, defaultCap⟩
          water = reduceMixture ⟨twisting.rules, TagTable.empty.oracle, defaultCap⟩ water := by
  obtain ⟨horacles, hingredient, halias⟩ :=
    reduceMixture_is_local twisting.rules defaultCap water
  have hsalt : "Salt" ∉ vocabulary twisting.rules water := by decide
  refine ⟨?_, hingredient _ "Salt" [] hsalt, halias _ "white" ["Salt"] (by simpa using hsalt)⟩
  have hagree : Oracle.AgreesOn (.plain ["Salt", "Onion", "Water"]) twisting.oracle
      (vocabulary twisting.rules water) := by
    refine ⟨?_, fun _ _ _ => Iff.rfl⟩
    decide
  rw [horacles _ _ hagree]
  exact reduceMixture_water

end RuleSystem

end Simmer
