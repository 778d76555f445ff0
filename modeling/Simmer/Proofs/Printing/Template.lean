import Simmer.Template
import Simmer.Proofs.Grammar.Token

/-!
Templates in print. A template is a sequence of words and is printed as its words with single
spaces. So it may come out of more than one text, but the printed one gives it back.
-/
namespace Simmer

/-- A reader and a printer of values that are sequences of words. A value is printed as the
words it was read from, of which there is one at least, and is read again from its print. -/
structure Spelled {α : Type} (parse : String → Except Fault α) (text : α → String) : Prop where
  text_eq : ∀ {s : String} {x : α}, parse s = .ok x → text x = Text.unwords (Text.words s)
  words_ne_nil : ∀ {s : String} {x : α}, parse s = .ok x → Text.words s ≠ []
  parse_text : ∀ {s : String} {x : α}, parse s = .ok x → parse (text x) = .ok x

namespace Spelled

variable {α : Type} {parse : String → Except Fault α} {text : α → String} {s : String} {x : α}

theorem inked (hspelled : Spelled parse text) (h : parse s = .ok x) :
    Text.Inked (text x).toList := by
  rw [hspelled.text_eq h]
  exact Text.inked_unwords (fun _ => Text.isWord_of_mem_words) (hspelled.words_ne_nil h)

theorem ink_eq (hspelled : Spelled parse text) (h : parse s = .ok x) :
    Text.ink (text x).toList = Text.ink s.toList := by
  rw [hspelled.text_eq h, Text.ink_unwords_words]

end Spelled

namespace Template

theorem parse_eq_ok_iff {s : String} {t : Template} :
    parse s = .ok t ↔
      Token.parseWords s = .ok t.tokens ∧ t.tokens ≠ [] ∧ Token.checkBase t.tokens = .ok () := by
  rw [parse, Outcome.bind_eq_ok_iff]
  constructor
  · rintro ⟨tokens, htokens, h⟩
    split at h
    · cases h
    · rename_i hne
      obtain ⟨⟨⟩, hbase, h⟩ := Outcome.bind_eq_ok_iff.mp h
      obtain rfl := Except.ok.inj h
      exact ⟨htokens, hne, hbase⟩
  · rintro ⟨htokens, hne, hbase⟩
    refine ⟨t.tokens, htokens, ?_⟩
    rw [if_neg hne, hbase]
    rfl

theorem map_text_tokens {s : String} {t : Template} (h : parse s = .ok t) :
    t.tokens.map Token.text = Text.words s :=
  Token.map_text_of_mapM (parse_eq_ok_iff.mp h).1 Token.text_of_parse

theorem text_of_parse {s : String} {t : Template} (h : parse s = .ok t) :
    t.text = Text.unwords (Text.words s) := by
  rw [text, map_text_tokens h]

theorem spelled : Spelled parse text where
  text_eq := text_of_parse
  words_ne_nil {s t} h := by
    rw [← map_text_tokens h, ne_eq, List.map_eq_nil_iff]
    exact (parse_eq_ok_iff.mp h).2.1
  parse_text {s t} h := by
    obtain ⟨htokens, hne, hbase⟩ := parse_eq_ok_iff.mp h
    refine parse_eq_ok_iff.mpr ⟨?_, hne, hbase⟩
    rw [Token.parseWords, text_of_parse h, Text.words_unwords_words]
    exact htokens

end Template

end Simmer
