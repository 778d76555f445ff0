import Simmer.Proofs.Grammar.Segments
import Simmer.Proofs.Outcome
import Simmer.Proofs.Text.Words

/-!
The grammar of texts that are split. A segment holds an element that does not begin with a
parenthesis, or one within a pair that goes around the whole segment. The texts that are split
are those with balanced parentheses whose segments all hold an element.
-/
namespace Simmer.Groups

open Text (consPiece isBlank trim trimEnd)

/-- An element in print. -/
def wrap (e : List Char) : List Char :=
  '(' :: (e ++ [')'])

/-- There is ink in the segment. If this begins with a parenthesis, then the one that matches it
is the last of the ink, and there is ink between both. -/
structure HoldsElement (segment : List Char) : Prop where
  ink : trim segment ≠ []
  wrapped : (trim segment).head? = some '(' →
    ∃ inside, trim segment = wrap inside ∧ Matched inside ∧ trim inside ≠ []

/-- The element of a segment, without the pair of parentheses around it. -/
def elementOf (segment : List Char) : List Char :=
  if (trim segment).head? = some '(' then trim (trim segment).tail.dropLast else trim segment

structure Grammatical (cs : List Char) : Prop where
  matched : Matched cs
  holds : ∀ segment ∈ segments cs, HoldsElement segment

variable {c : Char} {cs front p inside e : List Char} {es ps segs : List (List Char)}
  {depth : Nat} {phase next : Phase}

section scan

/-- What a segment gives when it is read. That there is ink between its parentheses is looked at
only behind the end of the text. -/
structure Gives (segment e : List Char) : Prop where
  ink : trim segment ≠ []
  wrapped : (trim segment).head? = some '(' →
    ∃ inside, trim segment = wrap inside ∧ Balanced inside
  element_eq : e = elementOf segment

theorem elementOf_of_wrap (h : trim p = wrap inside) : elementOf p = trim inside := by
  have hdrop : (wrap inside).tail.dropLast = inside := List.dropLast_concat
  rw [elementOf, h, hdrop]
  exact if_pos rfl

theorem elementOf_of_bare (h : (trim p).head? ≠ some '(') : elementOf p = trim p :=
  if_neg h

theorem not_gives_nil : ¬ Gives [] e :=
  fun h => h.ink rfl

theorem gives_cons_blank (h : isBlank c = true) : Gives (c :: p) e ↔ Gives p e := by
  have htrim := Text.trim_cons_blank h p
  have helement : elementOf (c :: p) = elementOf p := by rw [elementOf, elementOf, htrim]
  constructor
  · rintro ⟨hink, hwrapped, he⟩
    exact ⟨htrim ▸ hink, htrim ▸ hwrapped, helement ▸ he⟩
  · rintro ⟨hink, hwrapped, he⟩
    exact ⟨htrim ▸ hink, htrim ▸ hwrapped, helement ▸ he⟩

theorem gives_cons_bare (h : isBlank c = false) (hopen : c ≠ '(') :
    Gives (c :: p) e ↔ e = trim (c :: p) := by
  have htrim := Text.trim_cons_ink h p
  have hbare : (trim (c :: p)).head? ≠ some '(' := by simp [htrim, hopen]
  constructor
  · intro hgives
    rw [hgives.element_eq, elementOf_of_bare hbare]
  · intro he
    exact ⟨by simp [htrim], fun hwrapped => absurd hwrapped hbare,
      he.trans (elementOf_of_bare hbare).symm⟩

/-- The parenthesis in front is matched by one behind which there are blanks alone. -/
theorem gives_cons_open : Gives ('(' :: p) e ↔
    ∃ inside blanks, p = inside ++ ')' :: blanks ∧ Balanced inside ∧
      (∀ b ∈ blanks, isBlank b = true) ∧ e = trim inside := by
  have htrim : trim ('(' :: p) = '(' :: trimEnd p := Text.trim_cons_ink rfl p
  have hwrap (inside : List Char) : trim ('(' :: p) = wrap inside ↔
      ∃ blanks, p = inside ++ ')' :: blanks ∧ ∀ b ∈ blanks, isBlank b = true := by
    rw [htrim, wrap, List.cons_inj_right, Text.trimEnd_eq_concat_iff rfl]
  constructor
  · intro h
    obtain ⟨inside, hinside, hbalanced⟩ := h.wrapped (by simp [htrim])
    obtain ⟨blanks, hp, hblanks⟩ := (hwrap inside).mp hinside
    exact ⟨inside, blanks, hp, hbalanced, hblanks, by rw [h.element_eq, elementOf_of_wrap hinside]⟩
  · rintro ⟨inside, blanks, hp, hbalanced, hblanks, rfl⟩
    have hinside := (hwrap inside).mpr ⟨blanks, hp, hblanks⟩
    exact ⟨by simp [htrim], fun _ => ⟨inside, hinside, hbalanced⟩,
      (elementOf_of_wrap hinside).symm⟩

namespace Phase

/-- The pairs that are open in a phase. -/
def openPairs : Phase → Nat
  | awaiting => 0
  | bare depth _ => depth
  | wrapped depth _ => depth + 1
  | closed => 0

/-- What the rest of a segment gives that is met in a phase: one element, or none where the
element was closed before. -/
def Finishes : Phase → List Char → List (List Char) → Prop
  | awaiting, p, es => ∃ e, Gives p e ∧ es = [e]
  | bare _ read, p, es => es = [trim (read.reverse ++ p)]
  | wrapped depth read, p, es =>
    ∃ inside blanks, p = inside ++ ')' :: blanks ∧ openBehind depth inside = some 0 ∧
      (∀ b ∈ blanks, isBlank b = true) ∧ es = [trim (read.reverse ++ inside)]
  | closed, p, es => (∀ b ∈ p, isBlank b = true) ∧ es = []

/-- What segments give of which the first is met in a phase. -/
def Reads (phase : Phase) (segs es : List (List Char)) : Prop :=
  ∃ p ps first others, segs = p :: ps ∧ es = first ++ others ∧ phase.Finishes p first ∧
    List.Forall₂ Gives ps others

theorem reads_cons_iff : phase.Reads (p :: ps) es ↔
    ∃ first others, es = first ++ others ∧ phase.Finishes p first ∧
      List.Forall₂ Gives ps others := by
  simp [Reads]

theorem awaiting_reads_iff (hne : segs ≠ []) :
    awaiting.Reads segs es ↔ List.Forall₂ Gives segs es := by
  obtain ⟨p, ps, rfl⟩ := List.exists_cons_of_ne_nil hne
  rw [reads_cons_iff, List.forall₂_cons_left_iff]
  constructor
  · rintro ⟨first, others, rfl, ⟨e, he, rfl⟩, hothers⟩
    exact ⟨e, others, he, hothers, rfl⟩
  · rintro ⟨e, others, he, hothers, rfl⟩
    exact ⟨[e], others, rfl, ⟨e, he, rfl⟩, hothers⟩

/-- A character that is no join stays in its segment; the scan may close an element at it. -/
theorem reads_consPiece_iff (told : List (List Char)) (hne : segs ≠ [])
    (h : ∀ p es, phase.Finishes (c :: p) es ↔ ∃ rest, es = told ++ rest ∧ next.Finishes p rest) :
    phase.Reads (consPiece c segs) es ↔ ∃ rest, es = told ++ rest ∧ next.Reads segs rest := by
  obtain ⟨p, ps, rfl⟩ := List.exists_cons_of_ne_nil hne
  rw [consPiece, reads_cons_iff]
  simp only [reads_cons_iff]
  constructor
  · rintro ⟨first, others, rfl, hfirst, hothers⟩
    obtain ⟨rest, rfl, hrest⟩ := (h p first).mp hfirst
    exact ⟨rest ++ others, List.append_assoc .., rest, others, rfl, hrest, hothers⟩
  · rintro ⟨rest, rfl, first, others, rfl, hfirst, hothers⟩
    exact ⟨told ++ first, others, (List.append_assoc ..).symm, (h p _).mpr ⟨first, rfl, hfirst⟩,
      hothers⟩

theorem reads_consPiece_of_step (hne : segs ≠ [])
    (h : ∀ p es, phase.Finishes (c :: p) es ↔ next.Finishes p es) :
    phase.Reads (consPiece c segs) es ↔ next.Reads segs es := by
  rw [reads_consPiece_iff [] hne (by simpa using h)]
  simp

/-- A join begins another segment. -/
theorem reads_nil_cons_iff (told : List (List Char)) (hne : segs ≠ [])
    (h : ∀ es, phase.Finishes [] es ↔ es = told) :
    phase.Reads ([] :: segs) es ↔ ∃ rest, es = told ++ rest ∧ awaiting.Reads segs rest := by
  rw [reads_cons_iff]
  simp only [h, awaiting_reads_iff hne]
  constructor
  · rintro ⟨first, others, rfl, rfl, hothers⟩
    exact ⟨others, rfl, hothers⟩
  · rintro ⟨rest, rfl, hrest⟩
    exact ⟨told, rest, rfl, rfl, hrest⟩

theorem finishes_awaiting_blank (h : isBlank c = true) :
    awaiting.Finishes (c :: p) es ↔ awaiting.Finishes p es := by
  simp only [Finishes, gives_cons_blank h]

theorem finishes_awaiting_open :
    awaiting.Finishes ('(' :: p) es ↔ (wrapped 0 []).Finishes p es := by
  simp only [Finishes, gives_cons_open, Balanced, List.reverse_nil, List.nil_append]
  constructor
  · rintro ⟨e, ⟨inside, blanks, hp, hbalanced, hblanks, rfl⟩, rfl⟩
    exact ⟨inside, blanks, hp, hbalanced, hblanks, rfl⟩
  · rintro ⟨inside, blanks, hp, hbalanced, hblanks, rfl⟩
    exact ⟨_, ⟨inside, blanks, hp, hbalanced, hblanks, rfl⟩, rfl⟩

theorem finishes_awaiting_bare (h : isBlank c = false) (hopen : c ≠ '(') :
    awaiting.Finishes (c :: p) es ↔ (bare 0 [c]).Finishes p es := by
  simp [Finishes, gives_cons_bare h hopen]

theorem finishes_bare_cons {read : List Char} {depth' : Nat} :
    (bare depth read).Finishes (c :: p) es ↔ (bare depth' (c :: read)).Finishes p es := by
  simp [Finishes]

/-- Within a pair a character is part of the element, unless it closes the pair. -/
theorem finishes_wrapped_cons {read : List Char} {depth' : Nat}
    (hdepth : ∀ cs, openBehind depth (c :: cs) = openBehind depth' cs)
    (hstay : ¬ (c = ')' ∧ depth = 0)) :
    (wrapped depth read).Finishes (c :: p) es ↔ (wrapped depth' (c :: read)).Finishes p es := by
  simp only [Finishes, List.reverse_cons, List.append_assoc, List.singleton_append]
  constructor
  · rintro ⟨inside, blanks, hp, hinside, hblanks, rfl⟩
    cases inside with
    | nil =>
      obtain ⟨rfl, -⟩ := List.cons.inj hp
      exact absurd ⟨rfl, by simpa [openBehind] using hinside⟩ hstay
    | cons d inside =>
      obtain ⟨rfl, rfl⟩ := List.cons.inj hp
      exact ⟨inside, blanks, rfl, (hdepth inside).symm.trans hinside, hblanks, rfl⟩
  · rintro ⟨inside, blanks, rfl, hinside, hblanks, rfl⟩
    exact ⟨c :: inside, blanks, rfl, (hdepth inside).trans hinside, hblanks, rfl⟩

theorem finishes_wrapped_close {read : List Char} :
    (wrapped 0 read).Finishes (')' :: p) es ↔
      ∃ rest, es = [element read] ++ rest ∧ closed.Finishes p rest := by
  simp only [Finishes, element]
  constructor
  · rintro ⟨inside, blanks, hp, hinside, hblanks, rfl⟩
    cases inside with
    | nil =>
      obtain ⟨-, rfl⟩ := List.cons.inj hp
      exact ⟨[], by simp, hblanks, rfl⟩
    | cons d inside =>
      obtain ⟨rfl, -⟩ := List.cons.inj hp
      cases hinside
  · rintro ⟨rest, rfl, hblanks, rfl⟩
    exact ⟨[], p, rfl, rfl, hblanks, by simp⟩

theorem finishes_closed_blank (h : isBlank c = true) :
    closed.Finishes (c :: p) es ↔ closed.Finishes p es := by
  simp [Finishes, h]

end Phase

/-- An element is told in front of those that the rest of the scan finds. -/
theorem told_eq_ok_iff {found : Except PatternFlaw (List (List Char))} :
    (do
      let others ← found
      .ok (e :: others)) = .ok es ↔ ∃ others, es = [e] ++ others ∧ found = .ok others := by
  rw [Outcome.bind_eq_ok_iff]
  constructor
  · rintro ⟨others, hfound, hes⟩
    exact ⟨others, (Except.ok.inj hes).symm, hfound⟩
  · rintro ⟨others, rfl, hfound⟩
    exact ⟨others, hfound, rfl⟩

theorem ne_of_isBlank (h : isBlank c = true) : c ≠ '(' ∧ c ≠ ')' ∧ c ≠ '+' := by
  refine ⟨?_, ?_, ?_⟩ <;> rintro rfl <;> cases h

/-- From the phase, the scan returns the elements that the segments give and fails where there
are none, whatever stands in front. -/
def Phase.Exact (phase : Phase) (cs : List Char) : Prop :=
  ∀ front es, OpenAt phase.openPairs front →
    (scan phase cs = .ok es ↔
      openBehind phase.openPairs cs = some 0 ∧ phase.Reads (segmentsBehind front cs) es)

namespace Phase.Exact

/-- A character that separates no segments leads from phase to phase within one. -/
theorem step (hnext : next.Exact cs) (hscan : scan phase (c :: cs) = scan next cs)
    (hjoin : ¬ (c = '+' ∧ phase.openPairs = 0))
    (hfront : ∀ front, OpenAt phase.openPairs front → OpenAt next.openPairs (front ++ [c]))
    (hpairs : openBehind phase.openPairs (c :: cs) = openBehind next.openPairs cs)
    (hfinishes : ∀ p es, phase.Finishes (c :: p) es ↔ next.Finishes p es) :
    phase.Exact (c :: cs) := by
  intro front es hopen
  have hwithin : ¬ (c = '+' ∧ front.count '(' = front.count ')') := by
    rwa [hopen.balance_iff]
  rw [hscan, hnext _ es (hfront front hopen), segmentsBehind_other hwithin, hpairs,
    Phase.reads_consPiece_of_step (segmentsBehind_ne_nil _ _) hfinishes]

theorem step_open (hnext : next.Exact cs) (hscan : scan phase ('(' :: cs) = scan next cs)
    (hpairs : next.openPairs = phase.openPairs + 1)
    (hfinishes : ∀ p es, phase.Finishes ('(' :: p) es ↔ next.Finishes p es) :
    phase.Exact ('(' :: cs) :=
  hnext.step hscan (by simp) (fun _ hfront => hpairs ▸ hfront.opened) (hpairs ▸ rfl) hfinishes

theorem step_close (hnext : next.Exact cs) (hscan : scan phase (')' :: cs) = scan next cs)
    (hpairs : phase.openPairs = next.openPairs + 1)
    (hfinishes : ∀ p es, phase.Finishes (')' :: p) es ↔ next.Finishes p es) :
    phase.Exact (')' :: cs) := by
  refine hnext.step hscan (by simp) (fun front hfront => ?_) (hpairs ▸ rfl) hfinishes
  rw [hpairs] at hfront
  exact hfront.closed

theorem step_other (hnext : next.Exact cs) (hscan : scan phase (c :: cs) = scan next cs)
    (hopen : c ≠ '(') (hclose : c ≠ ')') (hjoin : ¬ (c = '+' ∧ phase.openPairs = 0))
    (hpairs : next.openPairs = phase.openPairs)
    (hfinishes : ∀ p es, phase.Finishes (c :: p) es ↔ next.Finishes p es) :
    phase.Exact (c :: cs) :=
  hnext.step hscan hjoin (fun _ hfront => hpairs ▸ hfront.other hopen hclose)
    (hpairs ▸ openBehind_other hopen hclose) hfinishes

/-- A closing parenthesis that matches nothing ends the scan. -/
theorem stray {flaw : PatternFlaw} (hscan : scan phase (')' :: cs) = .error flaw)
    (hpairs : phase.openPairs = 0) : phase.Exact (')' :: cs) := by
  intro front es _
  simp [hscan, hpairs, openBehind]

/-- What is told at a character stands in front of what the rest of the scan tells. -/
theorem exists_told (hnext : next.Exact cs) (hfront : OpenAt next.openPairs front)
    (told : List (List Char)) :
    (∃ rest, es = told ++ rest ∧ scan next cs = .ok rest) ↔
      openBehind next.openPairs cs = some 0 ∧
        ∃ rest, es = told ++ rest ∧ next.Reads (segmentsBehind front cs) rest := by
  simp only [hnext _ _ hfront]
  constructor
  · rintro ⟨rest, hes, hpairs, hrest⟩
    exact ⟨hpairs, rest, hes, hrest⟩
  · rintro ⟨hpairs, rest, hes, hrest⟩
    exact ⟨rest, hes, hpairs, hrest⟩

/-- A join outside of all pairs ends a segment, and the scan waits for the element of the next. -/
theorem join (hnext : awaiting.Exact cs) (hpairs : phase.openPairs = 0) (told : List (List Char))
    (hscan : ∀ es, scan phase ('+' :: cs) = .ok es ↔
      ∃ rest, es = told ++ rest ∧ scan .awaiting cs = .ok rest)
    (hfinishes : ∀ es, phase.Finishes [] es ↔ es = told) : phase.Exact ('+' :: cs) := by
  intro front es hfront
  have hafter : OpenAt awaiting.openPairs (front ++ ['+']) :=
    (hpairs ▸ hfront : OpenAt 0 front).other (by decide) (by decide)
  rw [hscan, hnext.exists_told hafter, segmentsBehind_join (hfront.balance_iff.mpr hpairs),
    openBehind_join, hpairs, reads_nil_cons_iff told (segmentsBehind_ne_nil _ _) hfinishes]
  rfl

theorem nil (phase : Phase) : phase.Exact [] := by
  intro front es _
  cases phase with
  | awaiting => simp [scan, segmentsBehind, reads_cons_iff, Finishes, not_gives_nil]
  | bare depth read =>
    by_cases hdepth : depth = 0
    · simp [scan, hdepth, segmentsBehind, openPairs, openBehind, reads_cons_iff, Finishes,
        element, eq_comm]
    · simp [scan, hdepth, openPairs, openBehind]
  | wrapped depth read => simp [scan, openPairs, openBehind]
  | closed =>
    have hnil : Except.ok (ε := PatternFlaw) [] = .ok es ↔ es = [] := by
      simp [eq_comm]
    simp [scan, hnil, segmentsBehind, openPairs, openBehind, reads_cons_iff, Finishes]

variable (h : ∀ next : Phase, next.Exact cs)
include h

/-- In front of an element there are blanks, and then either its first character or the
parenthesis around it. -/
theorem awaiting_cons (c : Char) : awaiting.Exact (c :: cs) := by
  by_cases hblank : isBlank c = true
  · obtain ⟨hopen, hclose, hplus⟩ := ne_of_isBlank hblank
    exact (h .awaiting).step_other (by rw [scan, if_pos hblank]) hopen hclose
      (fun hjoin => hplus hjoin.1) rfl fun _ _ => finishes_awaiting_blank hblank
  by_cases hopen : c = '('
  · subst hopen
    exact (h (.wrapped 0 [])).step_open rfl rfl fun _ _ => finishes_awaiting_open
  by_cases hclose : c = ')'
  · subst hclose
    exact stray rfl rfl
  by_cases hplus : c = '+'
  · subst hplus
    intro front es hfront
    rw [segmentsBehind_join (hfront.balance_iff.mpr rfl)]
    simp [scan, hblank, reads_cons_iff, Finishes, not_gives_nil]
  · rw [Bool.not_eq_true] at hblank
    have hscan : scan .awaiting (c :: cs) = scan (.bare 0 [c]) cs := by
      simp [scan, hblank, hopen, hclose, hplus]
    exact (h (.bare 0 [c])).step_other hscan hopen hclose (fun hjoin => hplus hjoin.1) rfl
      fun _ _ => finishes_awaiting_bare hblank hopen

/-- A bare element goes on up to a join outside of its pairs. -/
theorem bare_cons (depth : Nat) (read : List Char) (c : Char) : (bare depth read).Exact (c :: cs) := by
  by_cases hopen : c = '('
  · subst hopen
    exact (h (.bare (depth + 1) ('(' :: read))).step_open rfl rfl fun _ _ => finishes_bare_cons
  by_cases hclose : c = ')'
  · subst hclose
    cases depth with
    | zero => exact stray rfl rfl
    | succ depth =>
      exact (h (.bare depth (')' :: read))).step_close rfl rfl fun _ _ => finishes_bare_cons
  by_cases hjoin : c = '+' ∧ depth = 0
  · obtain ⟨rfl, rfl⟩ := hjoin
    exact (h .awaiting).join rfl [element read] (fun _ => told_eq_ok_iff)
      fun _ => by simp [Finishes, element]
  · have hscan : scan (.bare depth read) (c :: cs) = scan (.bare depth (c :: read)) cs := by
      rw [scan, if_neg hopen, if_neg hclose, if_neg hjoin]
    exact (h (.bare depth (c :: read))).step_other hscan hopen hclose hjoin rfl
      fun _ _ => finishes_bare_cons

/-- A wrapped element goes on up to the parenthesis that matches the one in front of it. -/
theorem wrapped_cons (depth : Nat) (read : List Char) (c : Char) :
    (wrapped depth read).Exact (c :: cs) := by
  by_cases hopen : c = '('
  · subst hopen
    exact (h (.wrapped (depth + 1) ('(' :: read))).step_open rfl rfl
      fun _ _ => finishes_wrapped_cons (fun _ => rfl) (by simp)
  by_cases hclose : c = ')'
  · subst hclose
    cases depth with
    | zero =>
      intro front es hfront
      rw [segmentsBehind_other (by simp),
        reads_consPiece_iff [element read] (segmentsBehind_ne_nil _ _)
          fun _ _ => finishes_wrapped_close]
      exact told_eq_ok_iff.trans ((h .closed).exists_told hfront.closed _)
    | succ depth =>
      exact (h (.wrapped depth (')' :: read))).step_close rfl rfl
        fun _ _ => finishes_wrapped_cons (fun _ => rfl) (by simp)
  · have hscan : scan (.wrapped depth read) (c :: cs) = scan (.wrapped depth (c :: read)) cs := by
      rw [scan, if_neg hopen, if_neg hclose]
    exact (h (.wrapped depth (c :: read))).step_other hscan hopen hclose (by simp [openPairs]) rfl
      fun _ _ => finishes_wrapped_cons (fun _ => openBehind_other hopen hclose) (by simp [hclose])

/-- Behind the pair around an element there are blanks, and then a join or the end. -/
theorem closed_cons (c : Char) : closed.Exact (c :: cs) := by
  by_cases hblank : isBlank c = true
  · obtain ⟨hopen, hclose, hplus⟩ := ne_of_isBlank hblank
    exact (h .closed).step_other (by rw [scan, if_pos hblank]) hopen hclose
      (fun hjoin => hplus hjoin.1) rfl fun _ _ => finishes_closed_blank hblank
  by_cases hplus : c = '+'
  · subst hplus
    exact (h .awaiting).join rfl [] (fun _ => by simp [scan, hblank]) fun _ => by simp [Finishes]
  · intro front es hfront
    obtain ⟨p, ps, hps⟩ := List.exists_cons_of_ne_nil (segmentsBehind_ne_nil (front ++ [c]) cs)
    rw [segmentsBehind_other fun h => hplus h.1, hps]
    simp [scan, hblank, hplus, Text.consPiece, reads_cons_iff, Finishes]

end Phase.Exact

theorem Phase.exact (phase : Phase) (cs : List Char) : phase.Exact cs := by
  induction cs generalizing phase with
  | nil => exact .nil phase
  | cons c cs ih =>
    cases phase with
    | awaiting => exact .awaiting_cons ih c
    | bare depth read => exact .bare_cons ih depth read c
    | wrapped depth read => exact .wrapped_cons ih depth read c
    | closed => exact .closed_cons ih c

end scan

section split

variable {text : String} {texts : List String}

theorem split_eq_ok_iff_scan : split text = .ok texts ↔
    ∃ es, scan .awaiting text.toList = .ok es ∧ (∀ e ∈ es, e ≠ []) ∧
      texts = es.map String.ofList := by
  unfold split
  cases hscan : scan .awaiting text.toList with
  | error flaw => simp
  | ok es =>
    by_cases hempty : es.any List.isEmpty = true
    · have hnot : ¬ ∀ e ∈ es, e ≠ [] := fun h => h [] (by simpa using hempty) rfl
      simp [hempty, hnot]
    · have hall : ∀ e ∈ es, e ≠ [] := by
        rintro _ he rfl
        exact hempty (by simpa using he)
      simp only [hempty, Bool.false_eq_true, if_false, Except.ok.injEq]
      constructor
      · rintro rfl
        exact ⟨es, rfl, hall, rfl⟩
      · rintro ⟨_, rfl, -, rfl⟩
        rfl

theorem split_ok_or_invalid (text : String) :
    (∃ texts, split text = .ok texts) ∨
      ∃ flaw, split text = .error (.invalidPattern text flaw) := by
  unfold split
  split
  · exact .inr ⟨_, rfl⟩
  · split
    · exact .inr ⟨_, rfl⟩
    · exact .inl ⟨_, rfl⟩

theorem gives_and_ne_nil_iff : Gives p e ∧ e ≠ [] ↔ HoldsElement p ∧ e = elementOf p := by
  constructor
  · rintro ⟨⟨hink, hwrapped, rfl⟩, hne⟩
    refine ⟨⟨hink, fun hopen => ?_⟩, rfl⟩
    obtain ⟨inside, hinside, hbalanced⟩ := hwrapped hopen
    rw [elementOf_of_wrap hinside] at hne
    exact ⟨inside, hinside, balanced_iff_matched.mp hbalanced, hne⟩
  · rintro ⟨⟨hink, hwrapped⟩, rfl⟩
    refine ⟨⟨hink, fun hopen => ?_, rfl⟩, ?_⟩
    · obtain ⟨inside, hinside, hmatched, -⟩ := hwrapped hopen
      exact ⟨inside, hinside, balanced_iff_matched.mpr hmatched⟩
    · by_cases hopen : (trim p).head? = some '('
      · obtain ⟨inside, hinside, -, hne⟩ := hwrapped hopen
        rwa [elementOf_of_wrap hinside]
      · rwa [elementOf_of_bare hopen]

theorem forall₂_gives_iff : (List.Forall₂ Gives segs es ∧ ∀ e ∈ es, e ≠ []) ↔
    (∀ segment ∈ segs, HoldsElement segment) ∧ es = segs.map elementOf := by
  induction segs generalizing es with
  | nil => cases es <;> simp
  | cons p ps ih =>
    cases es with
    | nil => simp
    | cons e es =>
      rw [List.forall₂_cons, List.forall_mem_cons, List.forall_mem_cons, List.map_cons,
        List.cons.injEq, and_and_and_comm, gives_and_ne_nil_iff, ih]
      exact and_and_and_comm

/-- What is split has balanced parentheses and an element in every segment, and is split into
these elements. -/
theorem split_eq_ok_iff : split text = .ok texts ↔
    Grammatical text.toList ∧
      texts = (segments text.toList).map fun segment => String.ofList (elementOf segment) := by
  have hscan (es : List (List Char)) : scan .awaiting text.toList = .ok es ↔
      Balanced text.toList ∧ List.Forall₂ Gives (segments text.toList) es := by
    have hfront : OpenAt Phase.awaiting.openPairs [] := rfl
    rw [Phase.exact .awaiting _ _ es hfront, Phase.awaiting_reads_iff (segmentsBehind_ne_nil _ _)]
    rfl
  rw [split_eq_ok_iff_scan]
  constructor
  · rintro ⟨es, hes, hne, rfl⟩
    obtain ⟨hbalanced, hgives⟩ := (hscan es).mp hes
    obtain ⟨hholds, rfl⟩ := forall₂_gives_iff.mp ⟨hgives, hne⟩
    exact ⟨⟨balanced_iff_matched.mp hbalanced, hholds⟩, List.map_map⟩
  · rintro ⟨⟨hmatched, hholds⟩, rfl⟩
    obtain ⟨hgives, hne⟩ := forall₂_gives_iff.mpr ⟨hholds, rfl⟩
    exact ⟨_, (hscan _).mpr ⟨balanced_iff_matched.mpr hmatched, hgives⟩, hne,
      (List.map_map (g := String.ofList) (f := elementOf)).symm⟩

/-- The texts that are split are those of the grammar, and each is split into the elements of its
segments; every other text is an invalid pattern. Where parentheses are balanced, a join outside
of them is what makes a second segment. -/
theorem split_follows_grammar (text : String) :
    (∀ texts, split text = .ok texts ↔
      Grammatical text.toList ∧
        texts = (segments text.toList).map fun segment => String.ofList (elementOf segment)) ∧
      (¬ Grammatical text.toList → ∃ flaw, split text = .error (.invalidPattern text flaw)) ∧
      (Matched text.toList →
        (hasOuterJoin 0 text.toList = true ↔ 2 ≤ (segments text.toList).length)) := by
  refine ⟨fun _ => split_eq_ok_iff, fun hnot => ?_, fun hmatched => ?_⟩
  · rcases split_ok_or_invalid text with ⟨texts, hok⟩ | hinvalid
    · exact absurd (split_eq_ok_iff.mp hok).1 hnot
    · exact hinvalid
  · exact hasOuterJoin_iff rfl (balanced_iff_matched.mpr hmatched)

theorem split_follows_grammar_stew :
    (Matched " (salty (sea + lake) Water)+ i1:!(a|b) + ((Rye))".toList ∧
      2 ≤ (segments " (salty (sea + lake) Water)+ i1:!(a|b) + ((Rye))".toList).length ∧
      Grammatical " (salty (sea + lake) Water)+ i1:!(a|b) + ((Rye))".toList) ∧
      ¬ Grammatical "(Rye) Water".toList ∧
      ∃ flaw, split "(Rye) Water" = .error (.invalidPattern "(Rye) Water" flaw) := by
  obtain ⟨hstew, -, hjoin⟩ :=
    split_follows_grammar " (salty (sea + lake) Water)+ i1:!(a|b) + ((Rye))"
  obtain ⟨hbare, hinvalid, -⟩ := split_follows_grammar "(Rye) Water"
  have hmatched : Matched " (salty (sea + lake) Water)+ i1:!(a|b) + ((Rye))".toList := by
    decide +kernel
  have hsplit : split " (salty (sea + lake) Water)+ i1:!(a|b) + ((Rye))" =
      .ok ["salty (sea + lake) Water", "i1:!(a|b)", "(Rye)"] := by decide +kernel
  have hnot : ¬ Grammatical "(Rye) Water".toList := fun h => by
    have hok := (hbare _).mpr ⟨h, rfl⟩
    have hfails : split "(Rye) Water" = .error (.invalidPattern "(Rye) Water" .expectedJoin) := by
      decide +kernel
    rw [hfails] at hok
    cases hok
  exact ⟨⟨hmatched, (hjoin hmatched).mp (by decide +kernel), ((hstew _).mp hsplit).1⟩, hnot,
    hinvalid hnot⟩

end split

end Simmer.Groups
