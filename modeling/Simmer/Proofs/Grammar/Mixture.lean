import Simmer.Mixture.Basic
import Simmer.Proofs.Printing.Groups

/-!
The grammar of mixtures. The mixtures that are read have components of words with balanced
prints, and every such mixture is read from its print.
-/
namespace Simmer

/-- There are words, and the parentheses in print are balanced. -/
structure Component.WellFormed (c : Component) : Prop where
  tokens_ne_nil : c.tokens ≠ []
  isWord : ∀ token ∈ c.tokens, Text.isWord token.toList = true
  matched : Groups.Matched c.text.toList

structure Mixture.WellFormed (m : Mixture) : Prop where
  components_ne_nil : m.components ≠ []
  components : ∀ c ∈ m.components, c.WellFormed

instance (c : Component) : Decidable c.WellFormed :=
  decidable_of_iff
    (c.tokens ≠ [] ∧ (∀ token ∈ c.tokens, Text.isWord token.toList = true) ∧
      Groups.Matched c.text.toList)
    ⟨fun ⟨hne, hwords, hmatched⟩ => ⟨hne, hwords, hmatched⟩,
      fun ⟨hne, hwords, hmatched⟩ => ⟨hne, hwords, hmatched⟩⟩

instance (m : Mixture) : Decidable m.WellFormed :=
  decidable_of_iff (m.components ≠ [] ∧ ∀ c ∈ m.components, c.WellFormed)
    ⟨fun ⟨hne, hall⟩ => ⟨hne, hall⟩, fun ⟨hne, hall⟩ => ⟨hne, hall⟩⟩

namespace Component

variable {c : Component}

theorem parse_eq_ok_iff {s : String} :
    parse s = .ok c ↔ c.tokens ≠ [] ∧ Text.words s = c.tokens := by
  unfold parse
  cases Text.words s with
  | nil => simp [eq_comm]
  | cons word words =>
    constructor
    · intro h
      obtain rfl := Except.ok.inj h
      exact ⟨List.cons_ne_nil _ _, rfl⟩
    · rintro ⟨-, hwords⟩
      simp only [hwords]

theorem spelled : Spelled parse Component.text where
  text_eq h := by rw [Component.text, (parse_eq_ok_iff.mp h).2]
  words_ne_nil h := by
    obtain ⟨hne, hwords⟩ := parse_eq_ok_iff.mp h
    rwa [hwords]
  parse_text h := by
    obtain ⟨hne, hwords⟩ := parse_eq_ok_iff.mp h
    refine parse_eq_ok_iff.mpr ⟨hne, ?_⟩
    rw [Component.text, ← hwords, Text.words_unwords_words]

theorem WellFormed.parse_text (h : c.WellFormed) : parse c.text = .ok c :=
  parse_eq_ok_iff.mpr ⟨h.tokens_ne_nil, Text.words_unwords h.isWord⟩

theorem WellFormed.wrappable (h : c.WellFormed) : Groups.Wrappable c.text.toList where
  inked := Text.inked_unwords h.isWord h.tokens_ne_nil
  balanced := Groups.balanced_iff_matched.mpr h.matched

end Component

namespace Mixture

variable {m : Mixture}

theorem parse_eq_ok_iff {s : String} :
    parse s = .ok m ↔
      ∃ texts, Groups.split s = .ok texts ∧ texts.mapM Component.parse = .ok m.components := by
  rw [parse, Outcome.bind_eq_ok_iff]
  constructor
  · rintro ⟨texts, hsplit, h⟩
    obtain ⟨components, hcomponents, h⟩ := Outcome.bind_eq_ok_iff.mp h
    obtain rfl := Except.ok.inj h
    exact ⟨texts, hsplit, hcomponents⟩
  · rintro ⟨texts, hsplit, hcomponents⟩
    exact ⟨texts, hsplit, Outcome.bind_eq_ok_iff.mpr ⟨m.components, hcomponents, rfl⟩⟩

theorem WellFormed.parse_text (h : m.WellFormed) : parse m.text = .ok m := by
  have hsplit : Groups.split m.text = .ok (m.components.map Component.text) := by
    refine Groups.split_write (fun text htext => ?_) (by simpa using h.components_ne_nil)
    obtain ⟨c, hc, rfl⟩ := List.mem_map.mp htext
    exact (h.components c hc).wrappable
  refine parse_eq_ok_iff.mpr ⟨_, hsplit, ?_⟩
  rw [Outcome.mapM_eq_ok_iff_map_eq, List.map_map]
  exact List.map_congr_left fun c hc => (h.components c hc).parse_text

theorem wellFormed_of_parse {s : String} (h : parse s = .ok m) : m.WellFormed := by
  obtain ⟨texts, hsplit, hcomponents⟩ := parse_eq_ok_iff.mp h
  refine ⟨Groups.ne_nil_of_mapM hsplit hcomponents, fun c hc => ?_⟩
  obtain ⟨text, -, htext⟩ := Outcome.exists_of_mem_mapM hcomponents hc
  obtain ⟨hne, hwords⟩ := Component.parse_eq_ok_iff.mp htext
  have hwrappable := Groups.wrappable_of_mapM Component.spelled hsplit hcomponents c hc
  refine ⟨hne, fun token htoken => ?_, Groups.balanced_iff_matched.mp hwrappable.balanced⟩
  rw [← hwords] at htoken
  exact Text.isWord_of_mem_words htoken

/-- Every well-formed mixture is read from its print, and what is read is well formed, whatever
pairs of parentheses were around its components. -/
theorem mixtures_come_back_from_print :
    (∀ m : Mixture, m.WellFormed → parse m.text = .ok m) ∧
      ∀ (s : String) (m : Mixture), parse s = .ok m → m.WellFormed ∧ parse m.text = .ok m :=
  ⟨fun _ h => h.parse_text, fun _ _ h =>
    ⟨wellFormed_of_parse h, (wellFormed_of_parse h).parse_text⟩⟩

/-- Water and rye, with parentheses and a join inside of the components. -/
def brine : Mixture :=
  ⟨[⟨["salty", "(sea", "+", "lake)", "Water"]⟩, ⟨["(Rye)"]⟩]⟩

theorem mixtures_come_back_from_print_brine :
    (brine.WellFormed ∧ brine.text = "(salty (sea + lake) Water) + ((Rye))" ∧
        parse brine.text = .ok brine) ∧
      parse " salty  (sea + lake) Water+((Rye))" = .ok brine ∧
        (∀ m, parse " salty  (sea + lake) Water+((Rye))" = .ok m →
          m.WellFormed ∧ parse m.text = .ok m) := by
  obtain ⟨hprint, hread⟩ := mixtures_come_back_from_print
  have hwell : brine.WellFormed := by decide +kernel
  have hparse : parse " salty  (sea + lake) Water+((Rye))" = .ok brine := by decide +kernel
  exact ⟨⟨hwell, by decide +kernel, hprint _ hwell⟩, hparse, fun m hm => hread _ m hm⟩

/-- A component that closes more than it opens does not come back. -/
example : ¬ (⟨[⟨["Rye)"]⟩]⟩ : Mixture).WellFormed := by decide +kernel

end Mixture

end Simmer
