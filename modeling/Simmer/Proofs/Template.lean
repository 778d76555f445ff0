import Simmer.Proofs.Bindings
import Simmer.Proofs.Outcome
import Simmer.Template

/-!
Templates that can be instantiated. Bindings cover a variable when they hold for its name what
its class asks for: a list for a collector, a constant for any other. A template whose
variables are covered is instantiated without a fault.
-/
namespace Simmer

/-- The bindings hold a list for a collector and a constant for any other variable. -/
def Bindings.Covers (b : Bindings) (t : Token) : Prop :=
  if t.isCollector = true then ∃ values, (t.name, .collected values) ∈ b.entries
  else ∃ value, (t.name, .single value) ∈ b.entries

namespace Bindings

theorem covers_of_collector {b : Bindings} {t : Token} (ht : t.isCollector = true) :
    b.Covers t ↔ ∃ values, (t.name, .collected values) ∈ b.entries := by
  rw [Covers, if_pos ht]

theorem covers_of_not_collector {b : Bindings} {t : Token} (ht : ¬ t.isCollector = true) :
    b.Covers t ↔ ∃ value, (t.name, .single value) ∈ b.entries := by
  rw [Covers, if_neg ht]

theorem Covers.mono {b b' : Bindings} {t : Token} (h : b.Covers t)
    (hsub : b.entries ⊆ b'.entries) : b'.Covers t := by
  by_cases ht : t.isCollector = true
  · obtain ⟨values, hmem⟩ := (covers_of_collector ht).mp h
    exact (covers_of_collector ht).mpr ⟨values, hsub hmem⟩
  · obtain ⟨value, hmem⟩ := (covers_of_not_collector ht).mp h
    exact (covers_of_not_collector ht).mpr ⟨value, hsub hmem⟩

/-- Covering depends on the name of a variable only. -/
theorem covers_congr {b : Bindings} {t u : Token} (ht : t.isVariable = true)
    (hu : u.isVariable = true) (h : t.name = u.name) : b.Covers t ↔ b.Covers u := by
  rw [Covers, Covers, Token.isCollector_eq_of_name_eq ht hu h, h]

end Bindings

namespace Token

theorem exists_resolve {b : Bindings} {t : Token} (h : t.isVariable = true → b.Covers t) :
    ∃ words, t.resolve b = .ok words := by
  unfold resolve
  by_cases hcollector : t.isCollector = true
  · have hvar : t.isVariable = true := by
      cases t with
      | constant name => simp [isCollector, class?] at hcollector
      | var cls digits q => rfl
    obtain ⟨values, hmem⟩ := (Bindings.covers_of_collector hcollector).mp (h hvar)
    refine ⟨values, ?_⟩
    simp [hcollector, Bindings.collected?, Roster.get?_eq_some_iff.mpr hmem]
  · by_cases hvar : t.isVariable = true
    · obtain ⟨value, hmem⟩ := (Bindings.covers_of_not_collector hcollector).mp (h hvar)
      refine ⟨[value], ?_⟩
      simp [hcollector, hvar, Bindings.single?, Roster.get?_eq_some_iff.mpr hmem]
    · exact ⟨[t.name], by simp [hcollector, hvar]⟩

end Token

namespace Template

/-- Keep the first token for each name. -/
def keepNew (seen : List Token) (token : Token) : List Token :=
  if seen.any fun other => other.name == token.name then seen else seen ++ [token]

/-- The tokens kept are among those given, and none is missing by name. -/
theorem foldl_keepNew (tokens seen : List Token) :
    seen ⊆ tokens.foldl keepNew seen ∧ tokens.foldl keepNew seen ⊆ seen ++ tokens ∧
      ∀ t ∈ tokens, ∃ kept ∈ tokens.foldl keepNew seen, kept.name = t.name := by
  induction tokens generalizing seen with
  | nil => simp
  | cons token tokens ih =>
    obtain ⟨hkept, hgiven, hnames⟩ := ih (keepNew seen token)
    have hseen : seen ⊆ keepNew seen token := by
      unfold keepNew
      split
      · exact List.Subset.refl seen
      · exact List.subset_append_left seen [token]
    have hfrom : keepNew seen token ⊆ seen ++ [token] := by
      unfold keepNew
      split
      · exact List.subset_append_left seen [token]
      · exact List.Subset.refl _
    have hfirst : ∃ kept ∈ keepNew seen token, kept.name = token.name := by
      unfold keepNew
      split
      · rename_i hany
        obtain ⟨other, hother, hname⟩ := List.any_eq_true.mp hany
        exact ⟨other, hother, by simpa using hname⟩
      · exact ⟨token, by simp, rfl⟩
    refine ⟨List.Subset.trans hseen hkept, ?_, ?_⟩
    · intro t ht
      rcases List.mem_append.mp (hgiven ht) with hold | hnew
      · have hmem := hfrom hold
        simp only [List.mem_append, List.mem_singleton] at hmem
        simp only [List.mem_append, List.mem_cons]
        rcases hmem with hold | hnow
        · exact Or.inl hold
        · exact Or.inr (Or.inl hnow)
      · exact List.mem_append_right _ (List.mem_cons_of_mem _ hnew)
    · intro t ht
      rcases List.mem_cons.mp ht with rfl | hrest
      · obtain ⟨kept, hmem, hname⟩ := hfirst
        exact ⟨kept, hkept hmem, hname⟩
      · exact hnames t hrest

theorem variable_of_mem_mentions {template : Template} {t : Token}
    (h : t ∈ template.mentions) : t ∈ template.tokens ∧ t.isVariable = true := by
  have hmem := (foldl_keepNew _ _).2.1 h
  rw [List.nil_append] at hmem
  exact List.mem_filter.mp hmem

theorem mem_tokens_of_mem_mentions {template : Template} {t : Token}
    (h : t ∈ template.mentions) : t ∈ template.tokens :=
  (variable_of_mem_mentions h).1

theorem isVariable_of_mem_mentions {template : Template} {t : Token}
    (h : t ∈ template.mentions) : t.isVariable = true :=
  (variable_of_mem_mentions h).2

/-- Every variable of the template is mentioned by name. -/
theorem exists_mention {template : Template} {t : Token} (ht : t ∈ template.tokens)
    (hvar : t.isVariable = true) : ∃ mention ∈ template.mentions, mention.name = t.name :=
  (foldl_keepNew _ _).2.2 t (List.mem_filter.mpr ⟨ht, hvar⟩)

theorem instantiate_eq_ok_iff {b : Bindings} {t : Template} {out : Component} :
    t.instantiate b = .ok out ↔
      ∃ parts : List (List String), t.tokens.map (Token.resolve b) = parts.map .ok ∧
        parts.flatten = out.tokens := by
  simp only [instantiate, Outcome.bind_eq_ok_iff, Outcome.mapM_eq_ok_iff_map_eq]
  constructor
  · rintro ⟨parts, hparts, h⟩
    obtain rfl := Except.ok.inj h
    exact ⟨parts, hparts, rfl⟩
  · rintro ⟨parts, hparts, h⟩
    exact ⟨parts, hparts, congrArg (fun tokens => Except.ok (Component.mk tokens)) h⟩

/-- Covered templates are instantiated. -/
theorem exists_instantiate {b : Bindings} {template : Template}
    (h : ∀ t ∈ template.tokens, t.isVariable = true → b.Covers t) :
    ∃ c, template.instantiate b = .ok c := by
  obtain ⟨parts, hparts⟩ := Outcome.exists_mapM fun t ht => Token.exists_resolve (h t ht)
  exact ⟨⟨parts.flatten⟩, Outcome.bind_eq_ok_iff.mpr ⟨parts, hparts, rfl⟩⟩

end Template

end Simmer
