import Simmer.Pattern.Reader
import Simmer.Proofs.Printing.Template
import Mathlib.Data.List.Nodup

/-!
The grammar of patterns. A clause is a header of collectors, perhaps a marker, and a body, and
a veto stands behind its mark. The patterns that are read are the well-formed ones, each from
its own words. The text that a reader is given beside the words only goes into faults, so the
words alone decide which pattern is read.
-/
namespace Simmer

/-- The digits are there and are digits, and a qualifier is one that can be read. -/
structure Collector.WellFormed (o : Collector) : Prop where
  digits_ne_empty : o.digits ≠ ""
  digits_isDigit : ∀ d ∈ o.digits.toList, d.isDigit = true
  qualifier_read : ∀ q ∈ o.qualifier, ∃ s, Condition.parse s = .ok q

/-- A token that is read as one of a body: it is no collector, no marker and no join. -/
structure Token.InBody (t : Token) : Prop where
  parse_text : parse t.text = .ok t
  not_collector : t.isCollector = false
  ne_ordered : t.text ≠ "&"
  ne_contiguous : t.text ≠ "&&"
  ne_join : t.text ≠ "+"

structure Clause.WellFormed (c : Clause) : Prop where
  names_distinct : (c.collectors.map Collector.name).Nodup
  collectors : ∀ o ∈ c.collectors, o.WellFormed
  body : ∀ t ∈ c.body, t.InBody ∧ t.text ≠ vetoMark
  base : ∀ t ∈ c.body.getLast?, t.class? ≠ some .modifier
  not_empty : ¬ (c.collectors = [] ∧ c.body = [])

/-- Every clause of the pattern is well formed, those of vetoes included. -/
def Pattern.WellFormed : Pattern → Prop
  | .plain c => c.WellFormed
  | .unless c veto => c.WellFormed ∧ veto.WellFormed

/-- The collectors have distinct names and stay out of the body. -/
structure Clause.Separate (c : Clause) : Prop where
  collectors_distinct : (c.collectors.map Collector.name).Nodup
  body_free : ∀ t ∈ c.body, t.isCollector = false

/-- Every clause of the pattern is separate, those of vetoes included. -/
def Pattern.Separate : Pattern → Prop
  | .plain c => c.Separate
  | .unless c veto => c.Separate ∧ veto.Separate

namespace Collector

variable {o : Collector}

theorem wellFormed_iff : o.WellFormed ↔ o.token.WellFormed := by
  have hread (q : Condition) : (∃ s, Condition.parse s = .ok q) ↔ q.WellFormed :=
    ⟨fun ⟨_, hs⟩ => (Condition.parse_eq_ok_iff.mp hs).1,
      fun hq => ⟨q.text, Condition.parse_eq_ok_iff.mpr ⟨hq, rfl⟩⟩⟩
  constructor
  · rintro ⟨hne, hdigits, hqualifier⟩
    exact ⟨hne, hdigits, fun q hq => (hread q).mp (hqualifier q hq)⟩
  · rintro ⟨hne, hdigits, hqualifier⟩
    exact ⟨hne, hdigits, fun q hq => (hread q).mpr (hqualifier q hq)⟩

theorem WellFormed.parse_text (h : o.WellFormed) : Token.parse o.text = .ok o.token :=
  Token.parse_eq_ok_iff.mpr ⟨wellFormed_iff.mp h, rfl⟩

theorem WellFormed.text_ne (h : o.WellFormed) {word : String}
    (hword : Token.parse word = .ok (.constant word)) : o.text ≠ word := by
  rintro rfl
  rw [h.parse_text] at hword
  cases hword

end Collector

theorem Strictness.ofMarker?_eq_some_iff {word : String} {s : Strictness} :
    ofMarker? word = some s ↔ s ≠ .loose ∧ s.marker = word := by
  constructor
  · intro h
    unfold ofMarker? at h
    split at h
    · rename_i hword
      obtain rfl := Option.some.inj h
      exact ⟨nofun, hword.symm⟩
    · split at h
      · rename_i hword
        obtain rfl := Option.some.inj h
        exact ⟨nofun, hword.symm⟩
      · cases h
  · rintro ⟨hstrict, rfl⟩
    cases s with
    | loose => exact absurd rfl hstrict
    | ordered => rfl
    | contiguous => rfl

theorem Strictness.ofMarker?_eq_none_iff {word : String} :
    ofMarker? word = none ↔ word ≠ "&" ∧ word ≠ "&&" := by
  unfold ofMarker?
  split
  · simp_all
  · split <;> simp_all

theorem Token.checkBase_eq_ok_iff {tokens : List Token} :
    checkBase tokens = .ok () ↔ ∀ t ∈ tokens.getLast?, t.class? ≠ some .modifier := by
  unfold checkBase
  cases tokens.getLast? with
  | none => simp
  | some last => simp [checkSlot]

namespace Clause

variable {text : String} {words rest : List String}

theorem nodup_names_concat {declared : List Collector} {o : Collector}
    (hdeclared : (declared.map Collector.name).Nodup) :
    ((declared ++ [o]).map Collector.name).Nodup ↔
      ¬ (declared.any fun other => other.name == o.name) = true := by
  rw [List.map_append, List.map_singleton, ← List.concat_eq_append, List.nodup_concat,
    and_iff_left hdeclared, List.mem_map, List.any_eq_true]
  simp only [beq_iff_eq]

/-- A header goes on behind a collector that is new, and ends in front of any other token. -/
theorem readHeader_cons_eq_ok_iff {word : String} {declared collectors : List Collector} :
    readHeader text declared (word :: words) = .ok (collectors, rest) ↔
      (∃ o : Collector, Token.parse word = .ok o.token ∧
          ¬ (declared.any fun other => other.name == o.name) = true ∧
            readHeader text (declared ++ [o]) words = .ok (collectors, rest)) ∨
        (∃ t, Token.parse word = .ok t ∧ t.isCollector = false) ∧
          declared = collectors ∧ word :: words = rest := by
  constructor
  · intro h
    rw [readHeader] at h
    obtain ⟨token, htoken, h⟩ := Outcome.bind_eq_ok_iff.mp h
    split at h
    · rename_i digits qualifier
      dsimp only at h
      split at h
      · cases h
      · rename_i hnew
        exact .inl ⟨⟨digits, qualifier⟩, htoken, hnew, h⟩
    · rename_i hother
      refine .inr ⟨⟨token, htoken, ?_⟩, Prod.mk.inj (Except.ok.inj h)⟩
      cases token with
      | constant name => rfl
      | var cls digits qualifier =>
        cases cls with
        | collector => exact absurd rfl (hother digits qualifier)
        | modifier => rfl
        | ingredient => rfl
  · rintro (⟨o, hword, hnew, hrest⟩ | ⟨⟨t, hword, ht⟩, rfl, rfl⟩)
    · rw [readHeader, hword]
      exact (if_neg hnew).trans hrest
    · rw [readHeader, hword]
      cases t with
      | constant name => rfl
      | var cls digits qualifier =>
        cases cls with
        | collector => cases ht
        | modifier => rfl
        | ingredient => rfl

/-- A header is read from the texts of its collectors, up to the first word that is none. -/
theorem readHeader_eq_ok_iff {declared collectors : List Collector}
    (hdeclared : (declared.map Collector.name).Nodup) :
    readHeader text declared words = .ok (collectors, rest) ↔
      ∃ found, declared ++ found = collectors ∧ found.map Collector.text ++ rest = words ∧
        (∀ o ∈ found, o.WellFormed) ∧ (collectors.map Collector.name).Nodup ∧
          ∀ word ∈ rest.head?, ∃ t, Token.parse word = .ok t ∧ t.isCollector = false := by
  -- the names read so far grow along the words and stay distinct
  induction words generalizing declared with
  | nil =>
    constructor
    · intro h
      obtain ⟨rfl, rfl⟩ := Prod.mk.inj (Except.ok.inj h)
      exact ⟨[], List.append_nil _, rfl, nofun, hdeclared, nofun⟩
    · rintro ⟨found, rfl, hwords, -⟩
      obtain ⟨hfound, rfl⟩ := List.append_eq_nil_iff.mp hwords
      rw [List.map_eq_nil_iff.mp hfound, List.append_nil]
      rfl
  | cons word words ih =>
    rw [readHeader_cons_eq_ok_iff]
    constructor
    · rintro (⟨o, hword, hnew, hrest⟩ | ⟨hstop, rfl, rfl⟩)
      · obtain ⟨found, rfl, rfl, hfound, hdistinct, hstop⟩ :=
          (ih ((nodup_names_concat hdeclared).mpr hnew)).mp hrest
        obtain ⟨hwell, rfl⟩ := Token.parse_eq_ok_iff.mp hword
        exact ⟨o :: found, List.append_cons _ _ _, rfl,
          List.forall_mem_cons.mpr ⟨Collector.wellFormed_iff.mpr hwell, hfound⟩, hdistinct, hstop⟩
      · refine ⟨[], List.append_nil _, rfl, nofun, hdeclared, fun first hfirst => ?_⟩
        obtain rfl := Option.some.inj hfirst
        exact hstop
    · rintro ⟨found, rfl, hwords, hfound, hdistinct, hstop⟩
      cases found with
      | nil =>
        obtain rfl : rest = word :: words := hwords
        exact .inr ⟨hstop word rfl, (List.append_nil _).symm, rfl⟩
      | cons o found =>
        obtain ⟨ho, hfound⟩ := List.forall_mem_cons.mp hfound
        obtain ⟨rfl, rfl⟩ := List.cons.inj hwords
        have hfront : ((declared ++ [o]).map Collector.name).Nodup := by
          rw [List.append_cons] at hdistinct
          exact hdistinct.sublist ((List.sublist_append_left _ _).map _)
        exact .inl ⟨o, ho.parse_text, (nodup_names_concat hdeclared).mp hfront, (ih hfront).mpr
          ⟨found, (List.append_cons _ _ _).symm, rfl, hfound, hdistinct, hstop⟩⟩

theorem words_of_takeMarker (words : List String) (collectors : List Collector)
    (body : List Token) :
    markerWords ⟨collectors, (takeMarker words).1, body⟩ ++ (takeMarker words).2 = words := by
  cases words with
  | nil => rfl
  | cons word words =>
    rw [takeMarker]
    split
    · rename_i s hmarker
      obtain ⟨hstrict, hword⟩ := Strictness.ofMarker?_eq_some_iff.mp hmarker
      simp [markerWords, hstrict, hword]
    · simp [markerWords]

/-- Words that do not begin with a marker are left behind the marker of a clause. -/
theorem takeMarker_markerWords (c : Clause)
    (h : ∀ word ∈ words.head?, Strictness.ofMarker? word = none) :
    takeMarker (c.markerWords ++ words) = (c.strictness, words) := by
  by_cases hstrict : c.strictness = .loose
  · rw [markerWords, if_pos hstrict, List.nil_append, hstrict]
    cases words with
    | nil => rfl
    | cons word words => rw [takeMarker, h word rfl]
  · rw [markerWords, if_neg hstrict, List.singleton_append, takeMarker,
      Strictness.ofMarker?_eq_some_iff.mpr ⟨hstrict, rfl⟩]

theorem readBodyWord_eq_ok_iff {word : String} {t : Token} :
    readBodyWord text word = .ok t ↔ t.InBody ∧ t.text = word := by
  unfold readBodyWord
  constructor
  · intro h
    split at h
    · cases h
    rename_i hmarker
    split at h
    · cases h
    rename_i hjoin
    obtain ⟨token, htoken, h⟩ := Outcome.bind_eq_ok_iff.mp h
    split at h
    · cases h
    rename_i hcollector
    obtain rfl := Except.ok.inj h
    obtain rfl := Token.text_of_parse htoken
    obtain ⟨hordered, hcontiguous⟩ :=
      Strictness.ofMarker?_eq_none_iff.mp (Option.not_isSome_iff_eq_none.mp hmarker)
    exact ⟨⟨htoken, by simpa using hcollector, hordered, hcontiguous, hjoin⟩, rfl⟩
  · rintro ⟨ht, rfl⟩
    have hmarker := Strictness.ofMarker?_eq_none_iff.mpr ⟨ht.ne_ordered, ht.ne_contiguous⟩
    rw [hmarker, if_neg (by simp), if_neg ht.ne_join, ht.parse_text]
    simp [bind, Except.bind, ht.not_collector]

theorem mapM_readBodyWord_eq_ok_iff {body : List Token} :
    words.mapM (readBodyWord text) = .ok body ↔
      (∀ t ∈ body, t.InBody) ∧ body.map Token.text = words := by
  constructor
  · intro h
    refine ⟨fun t ht => ?_, Token.map_text_of_mapM h fun hword =>
      (readBodyWord_eq_ok_iff.mp hword).2⟩
    obtain ⟨word, -, hword⟩ := Outcome.exists_of_mem_mapM h ht
    exact (readBodyWord_eq_ok_iff.mp hword).1
  · rintro ⟨hbody, rfl⟩
    rw [Outcome.mapM_eq_ok_iff_map_eq, List.map_map]
    exact List.map_congr_left fun t ht => readBodyWord_eq_ok_iff.mpr ⟨hbody t ht, rfl⟩

theorem ofWords_eq_ok_iff {c : Clause} :
    ofWords text words = .ok c ↔
      ∃ rest, readHeader text [] words = .ok (c.collectors, rest) ∧
        (takeMarker rest).1 = c.strictness ∧
        (takeMarker rest).2.mapM (readBodyWord text) = .ok c.body ∧
        Token.checkBase c.body = .ok () ∧ ¬ (c.collectors = [] ∧ c.body = []) := by
  unfold ofWords
  rw [Outcome.bind_eq_ok_iff]
  constructor
  · rintro ⟨⟨collectors, rest⟩, hheader, h⟩
    obtain ⟨body, hbody, h⟩ := Outcome.bind_eq_ok_iff.mp h
    obtain ⟨⟨⟩, hbase, h⟩ := Outcome.bind_eq_ok_iff.mp h
    split at h
    · cases h
    · rename_i hnonempty
      obtain rfl := Except.ok.inj h
      exact ⟨rest, hheader, rfl, hbody, hbase, hnonempty⟩
  · rintro ⟨rest, hheader, hstrict, hbody, hbase, hnonempty⟩
    refine ⟨(c.collectors, rest), hheader, ?_⟩
    dsimp only
    rw [hbody, hstrict]
    simp [bind, Except.bind, hbase, hnonempty]

variable {c : Clause}

theorem WellFormed.separate (h : c.WellFormed) : c.Separate where
  collectors_distinct := h.names_distinct
  body_free t ht := (h.body t ht).1.not_collector

theorem mem_markerWords {word : String} :
    word ∈ c.markerWords ↔ c.strictness ≠ .loose ∧ c.strictness.marker = word := by
  unfold markerWords
  split
  · rename_i hstrict
    simp [hstrict]
  · rename_i hstrict
    rw [List.mem_singleton, eq_comm, and_iff_right hstrict]

/-- Behind the header of a well-formed clause, no word is a collector. -/
theorem WellFormed.exists_parse (h : c.WellFormed) :
    ∀ word ∈ c.markerWords ++ c.body.map Token.text,
      ∃ t, Token.parse word = .ok t ∧ t.isCollector = false := by
  intro word hword
  rcases List.mem_append.mp hword with hmarker | hbody
  · obtain ⟨hstrict, rfl⟩ := mem_markerWords.mp hmarker
    cases hs : c.strictness with
    | loose => exact absurd hs hstrict
    | ordered => exact ⟨.constant "&", rfl, rfl⟩
    | contiguous => exact ⟨.constant "&&", rfl, rfl⟩
  · obtain ⟨t, ht, rfl⟩ := List.mem_map.mp hbody
    exact ⟨t, (h.body t ht).1.parse_text, (h.body t ht).1.not_collector⟩

theorem WellFormed.isWord_of_mem_words (h : c.WellFormed) :
    ∀ word ∈ c.words, Text.isWord word.toList = true := by
  intro word hword
  rw [words, List.append_assoc] at hword
  rcases List.mem_append.mp hword with hheader | hrest
  · obtain ⟨o, ho, rfl⟩ := List.mem_map.mp hheader
    exact Token.isWord_of_parse (h.collectors o ho).parse_text
  · obtain ⟨t, ht, -⟩ := h.exists_parse word hrest
    exact Token.isWord_of_parse ht

/-- A constant is no word of a clause when it is neither a marker nor in the body. -/
theorem WellFormed.notMem_words (h : c.WellFormed) {word : String}
    (hconstant : Token.parse word = .ok (.constant word))
    (hmarker : Strictness.ofMarker? word = none) (hbody : ∀ t ∈ c.body, t.text ≠ word) :
    word ∉ c.words := by
  rw [words, List.mem_append, List.mem_append, List.mem_map, List.mem_map]
  rintro ((⟨o, ho, htext⟩ | hmem) | ⟨t, ht, htext⟩)
  · exact (h.collectors o ho).text_ne hconstant htext
  · rw [Strictness.ofMarker?_eq_some_iff.mpr (mem_markerWords.mp hmem)] at hmarker
    cases hmarker
  · exact hbody t ht htext

theorem WellFormed.vetoMark_notMem_words (h : c.WellFormed) : vetoMark ∉ c.words :=
  h.notMem_words rfl rfl fun t ht => (h.body t ht).2

theorem WellFormed.join_notMem_words (h : c.WellFormed) : "+" ∉ c.words :=
  h.notMem_words rfl rfl fun t ht => (h.body t ht).1.ne_join

theorem WellFormed.words_ne_nil (h : c.WellFormed) : c.words ≠ [] := by
  intro hnil
  rw [words, List.append_eq_nil_iff, List.append_eq_nil_iff] at hnil
  exact h.not_empty ⟨List.map_eq_nil_iff.mp hnil.1.1, List.map_eq_nil_iff.mp hnil.2⟩

/-- Without a veto mark, exactly the well-formed clauses are read, each from its words. -/
theorem ofWords_eq_ok_iff_wellFormed (hveto : vetoMark ∉ words) :
    ofWords text words = .ok c ↔ c.WellFormed ∧ c.words = words := by
  have hnone : (([] : List Collector).map Collector.name).Nodup := List.nodup_nil
  rw [ofWords_eq_ok_iff]
  simp only [readHeader_eq_ok_iff hnone]
  constructor
  · rintro ⟨rest, ⟨found, rfl, rfl, hfound, hdistinct, -⟩, hstrict, hbody, hbase, hnonempty⟩
    obtain ⟨hbody, htexts⟩ := mapM_readBodyWord_eq_ok_iff.mp hbody
    have hrest : c.markerWords ++ c.body.map Token.text = rest := by
      rw [htexts]
      have hcut := words_of_takeMarker rest c.collectors c.body
      rwa [hstrict] at hcut
    have hnoveto : ∀ t ∈ c.body, t.text ≠ vetoMark := by
      intro t ht htext
      refine hveto (List.mem_append_right _ ?_)
      rw [← hrest, ← htext]
      exact List.mem_append_right _ (List.mem_map_of_mem ht)
    refine ⟨⟨hdistinct, hfound, fun t ht => ⟨hbody t ht, hnoveto t ht⟩,
      Token.checkBase_eq_ok_iff.mp hbase, hnonempty⟩, ?_⟩
    rw [Clause.words, List.append_assoc, hrest]
  · rintro ⟨hwell, rfl⟩
    have hfirst : ∀ word ∈ (c.body.map Token.text).head?, Strictness.ofMarker? word = none := by
      intro word hword
      obtain ⟨t, ht, rfl⟩ := List.mem_map.mp (List.mem_of_mem_head? hword)
      exact Strictness.ofMarker?_eq_none_iff.mpr
        ⟨(hwell.body t ht).1.ne_ordered, (hwell.body t ht).1.ne_contiguous⟩
    refine ⟨c.markerWords ++ c.body.map Token.text,
      ⟨c.collectors, rfl, (List.append_assoc _ _ _).symm, hwell.collectors, hwell.names_distinct,
        fun word hword => hwell.exists_parse word (List.mem_of_mem_head? hword)⟩, ?_⟩
    rw [takeMarker_markerWords c hfirst]
    exact ⟨rfl, mapM_readBodyWord_eq_ok_iff.mpr ⟨fun t ht => (hwell.body t ht).1, rfl⟩,
      Token.checkBase_eq_ok_iff.mpr hwell.base, hwell.not_empty⟩

end Clause

namespace Pattern

variable {words : List String} {p : Pattern}

theorem segments_append {front : List String} (h : vetoMark ∉ front) (rest : List String) :
    segments (front ++ rest) = (front ++ (segments rest).1, (segments rest).2) := by
  induction front with
  | nil => rfl
  | cons word front ih =>
    rw [List.mem_cons, not_or] at h
    rw [List.cons_append, segments, ih h.2]
    exact if_neg (Ne.symm h.1)

theorem segments_vetoMark (rest : List String) :
    segments (vetoMark :: rest) = ([], (segments rest).1 :: (segments rest).2) := by
  rw [segments]
  exact if_pos rfl

theorem vetoMark_notMem_segments (words : List String) :
    vetoMark ∉ (segments words).1 ∧ ∀ other ∈ (segments words).2, vetoMark ∉ other := by
  induction words with
  | nil => exact ⟨List.not_mem_nil, nofun⟩
  | cons word words ih =>
    by_cases hword : word = vetoMark
    · rw [hword, segments_vetoMark]
      exact ⟨List.not_mem_nil, List.forall_mem_cons.mpr ih⟩
    · rw [segments]
      dsimp only
      rw [if_neg hword]
      exact ⟨List.not_mem_cons_of_ne_of_not_mem (Ne.symm hword) ih.1, ih.2⟩

theorem WellFormed.clause (h : p.WellFormed) : p.clause.WellFormed := by
  cases p with
  | plain c => exact h
  | «unless» c veto => exact h.1

theorem WellFormed.separate (h : p.WellFormed) : p.Separate := by
  induction p with
  | plain c => exact Clause.WellFormed.separate h
  | «unless» c veto ih => exact ⟨h.1.separate, ih h.2⟩

theorem WellFormed.words_ne_nil (h : p.WellFormed) : p.words ≠ [] := by
  cases p with
  | plain c => exact Clause.WellFormed.words_ne_nil h
  | «unless» c veto => exact List.append_ne_nil_of_right_ne_nil _ (List.cons_ne_nil _ _)

theorem WellFormed.isWord_of_mem_words (h : p.WellFormed) :
    ∀ word ∈ p.words, Text.isWord word.toList = true := by
  induction p with
  | plain c => exact Clause.WellFormed.isWord_of_mem_words h
  | «unless» c veto ih =>
    exact List.forall_mem_append.mpr
      ⟨h.1.isWord_of_mem_words, List.forall_mem_cons.mpr ⟨rfl, ih h.2⟩⟩

theorem WellFormed.join_notMem_words (h : p.WellFormed) : "+" ∉ p.words := by
  induction p with
  | plain c => exact Clause.WellFormed.join_notMem_words h
  | «unless» c veto ih =>
    rw [Pattern.words, List.mem_append, List.mem_cons]
    rintro (hclause | hmark | hveto)
    · exact h.1.join_notMem_words hclause
    · exact absurd hmark (by decide)
    · exact ih h.2 hveto

/-- What is read from segments is well formed and has their words. -/
theorem wellFormed_of_ofSegments {text : String} {first : List String}
    {others : List (List String)} (hfirst : vetoMark ∉ first)
    (hothers : ∀ other ∈ others, vetoMark ∉ other)
    (h : ofSegments text first others = .ok p) :
    p.WellFormed ∧ p.words = joinSegments first others := by
  -- a veto is read with the text of its own words, hence `text` is general
  induction others generalizing text first p with
  | nil =>
    obtain ⟨clause, hclause, h⟩ := Outcome.bind_eq_ok_iff.mp h
    obtain rfl := Except.ok.inj h
    obtain ⟨hwell, hwords⟩ := (Clause.ofWords_eq_ok_iff_wellFormed hfirst).mp hclause
    exact ⟨hwell, hwords.trans (List.append_nil _).symm⟩
  | cons next others ih =>
    rw [ofSegments] at h
    split at h
    · cases h
    · obtain ⟨veto, hveto, h⟩ := Outcome.bind_eq_ok_iff.mp h
      obtain ⟨clause, hclause, h⟩ := Outcome.bind_eq_ok_iff.mp h
      obtain rfl := Except.ok.inj h
      obtain ⟨hnext, hothers⟩ := List.forall_mem_cons.mp hothers
      obtain ⟨hwell, hwords⟩ := (Clause.ofWords_eq_ok_iff_wellFormed hfirst).mp hclause
      obtain ⟨hwellVeto, hwordsVeto⟩ := ih hnext hothers hveto
      refine ⟨⟨hwell, hwellVeto⟩, ?_⟩
      rw [Pattern.words, hwords, hwordsVeto]
      rfl

/-- A well-formed pattern is read from the segments of its words. -/
theorem ofSegments_words (h : p.WellFormed) (text : String) :
    ofSegments text (segments p.words).1 (segments p.words).2 = .ok p := by
  -- the words of a clause hold no veto mark, so the first mark is the one that was printed
  induction p generalizing text with
  | plain c =>
    have hveto := Clause.WellFormed.vetoMark_notMem_words h
    have hsegments : segments c.words = (c.words, []) := by
      simpa [segments] using segments_append hveto []
    rw [Pattern.words, hsegments, ofSegments,
      (Clause.ofWords_eq_ok_iff_wellFormed hveto).mpr ⟨h, rfl⟩]
    rfl
  | «unless» c veto ih =>
    obtain ⟨hc, hveto⟩ := h
    have hsome : ¬ ((segments veto.words).1 = [] ∧ (segments veto.words).2 = []) := by
      rintro ⟨hfirst, hothers⟩
      have hjoin := joinSegments_segments veto.words
      rw [hfirst, hothers] at hjoin
      exact hveto.words_ne_nil hjoin.symm
    rw [Pattern.words, segments_append hc.vetoMark_notMem_words, segments_vetoMark, List.append_nil,
      ofSegments, if_neg hsome, ih hveto,
      (Clause.ofWords_eq_ok_iff_wellFormed hc.vetoMark_notMem_words).mpr ⟨hc, rfl⟩]
    rfl

/-- Exactly the well-formed patterns are read, each from its words. -/
theorem parse_eq_ok_iff {s : String} :
    parse s = .ok p ↔ p.WellFormed ∧ p.words = Text.words s := by
  constructor
  · intro h
    obtain ⟨hfirst, hothers⟩ := vetoMark_notMem_segments (Text.words s)
    obtain ⟨hwell, hwords⟩ := wellFormed_of_ofSegments hfirst hothers h
    exact ⟨hwell, hwords.trans (joinSegments_segments _)⟩
  · rintro ⟨hwell, hwords⟩
    rw [parse, ← hwords]
    exact ofSegments_words hwell s

theorem separate_of_parse {s : String} (h : parse s = .ok p) : p.Separate :=
  (parse_eq_ok_iff.mp h).1.separate

theorem spelled : Spelled parse Pattern.text where
  text_eq h := by rw [Pattern.text, (parse_eq_ok_iff.mp h).2]
  words_ne_nil h := by
    obtain ⟨hwell, hwords⟩ := parse_eq_ok_iff.mp h
    rw [← hwords]
    exact hwell.words_ne_nil
  parse_text h := by
    obtain ⟨hwell, -⟩ := parse_eq_ok_iff.mp h
    exact parse_eq_ok_iff.mpr ⟨hwell, (Text.words_unwords hwell.isWord_of_mem_words).symm⟩

/-- What is read is well formed and is printed as the words it was read from, and every
well-formed pattern is read from its print, its collectors in their order. -/
theorem parse_and_print_are_inverse :
    (∀ (s : String) (p : Pattern), parse s = .ok p →
        p.WellFormed ∧ p.text = Text.unwords (Text.words s)) ∧
      ∀ p : Pattern, p.WellFormed → parse p.text = .ok p := by
  refine ⟨fun s p h => ⟨(parse_eq_ok_iff.mp h).1, spelled.text_eq h⟩, fun p h => ?_⟩
  exact parse_eq_ok_iff.mpr ⟨h, (Text.words_unwords h.isWord_of_mem_words).symm⟩

/-- A modifier right in front of an onion that nothing burnt or raw precedes. -/
def dressedOnion : Pattern :=
  .unless
    ⟨[⟨"2", none⟩, ⟨"1", some (.tag "salty")⟩], .contiguous,
      [.var .modifier "1" none, .constant "Onion"]⟩
    (.unless ⟨[], .loose, [.constant "burnt", .var .ingredient "1" none]⟩
      (.plain ⟨[⟨"1", none⟩], .ordered, [.constant "raw"]⟩))

theorem parse_and_print_are_inverse_onion :
    (parse " o2 o1:salty  && m1 Onion !! burnt i1 !! o1 & raw" = .ok dressedOnion ∧
        dressedOnion.text = "o2 o1:salty && m1 Onion !! burnt i1 !! o1 & raw") ∧
      dressedOnion.WellFormed ∧ parse dressedOnion.text = .ok dressedOnion := by
  obtain ⟨hread, hprint⟩ := parse_and_print_are_inverse
  have hparse :
      parse " o2 o1:salty  && m1 Onion !! burnt i1 !! o1 & raw" = .ok dressedOnion := by
    decide +kernel
  obtain ⟨hwell, htext⟩ := hread _ _ hparse
  exact ⟨⟨hparse, htext.trans (by decide +kernel)⟩, hwell, hprint _ hwell⟩

end Pattern

end Simmer
