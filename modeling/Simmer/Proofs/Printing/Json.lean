import Simmer.Json.Library
import Simmer.Proofs.Outcome
import Mathlib.Data.List.TakeWhile

/-!
Values in print. A reader takes a printed value when it returns that value, whatever blanks are
in front and whatever stands behind that may follow a value. Of a library for JSON it is asked
that words are taken from their digits, names from between quotes and records from objects, and
that each of these is what is written. The library that is at hand does so.
-/
namespace Simmer.Json

variable {α β σ : Type} {blanks ds rest spare text w : List Char} {n : Nat}

def Blank (cs : List Char) : Prop :=
  ∀ c ∈ cs, isBlank c = true

theorem blank_nil : Blank [] := by
  simp [Blank]

theorem skipBlanks_append (h : Blank blanks) (cs : List Char) :
    skipBlanks (blanks ++ cs) = skipBlanks cs :=
  List.dropWhile_append_of_pos h

theorem skipBlanks_cons {c : Char} (h : isBlank c = false) (cs : List Char) :
    skipBlanks (c :: cs) = c :: cs :=
  List.dropWhile_cons_of_neg (by simp [h])

/-- What may follow a value: blanks, a comma, the end of what it stands in or of the text. -/
def EndsValue (rest : List Char) : Prop :=
  ∀ c ∈ rest.head?, isBlank c = true ∨ c = ',' ∨ c = ']' ∨ c = '\x7d'

/-- The reader returns `x` for the text, and leaves what is behind it. -/
def Takes (value : Reader α) (text : List Char) (x : α) : Prop :=
  ∀ blanks rest, Blank blanks → EndsValue rest →
    value (blanks ++ (text ++ rest)) = .ok (x, rest)

theorem Takes.map {value : Reader α} {x : α} (h : Takes value text x) (f : α → β) :
    Takes (fun cs => (value cs).map fun (a, rest) => (f a, rest)) text (f x) := by
  intro blanks rest hblanks hrest
  simp only [h blanks rest hblanks hrest]
  rfl

theorem readAll_of_takes {value : Reader α} {s : String} {x : α} (h : Takes value s.toList x) :
    readAll value s = .ok x := by
  have hvalue := h [] [] blank_nil (by simp [EndsValue])
  rw [List.nil_append, List.append_nil] at hvalue
  rw [readAll, hvalue]
  rfl

section word

/-- A numeral does not go on with what may follow a value. -/
theorem EndsValue.ends_numeral (h : EndsValue rest) {c : Char} (hc : c ∈ rest.head?) :
    c.isDigit = false ∧ c ≠ '.' ∧ c ≠ 'e' ∧ c ≠ 'E' := by
  rcases h c hc with hblank | rfl | rfl | rfl
  · simp only [isBlank, Bool.or_eq_true, beq_iff_eq] at hblank
    rcases hblank with ((rfl | rfl) | rfl) | rfl <;> decide
  · decide
  · decide
  · decide

theorem readDigits_append (atEnd : Flaw) (hne : ds ≠ []) (hall : ∀ d ∈ ds, d.isDigit = true)
    (hrest : EndsValue rest) : readDigits atEnd (ds ++ rest) = .ok (ds, rest) := by
  have hstop : rest.takeWhile Char.isDigit = [] ∧ rest.dropWhile Char.isDigit = rest := by
    cases rest with
    | nil => exact ⟨rfl, rfl⟩
    | cons c rest =>
      have hc := (hrest.ends_numeral (c := c) rfl).1
      simp [hc]
  obtain ⟨d, ds, rfl⟩ := List.exists_cons_of_ne_nil hne
  rw [readDigits, List.takeWhile_append_of_pos hall, List.dropWhile_append_of_pos hall, hstop.1,
    hstop.2, List.append_nil]

theorem readFraction_of_ends (atEnd : Flaw) (hrest : EndsValue rest) :
    readFraction atEnd rest = .ok ([], rest) := by
  cases rest with
  | nil => rfl
  | cons c rest => exact if_neg (hrest.ends_numeral (c := c) rfl).2.1

theorem readExponent_of_ends (atEnd : Flaw) (hrest : EndsValue rest) :
    readExponent atEnd rest = .ok (none, rest) := by
  cases rest with
  | nil => rfl
  | cons c rest =>
    obtain ⟨-, -, hlower, hupper⟩ := hrest.ends_numeral (c := c) rfl
    exact if_neg (by simp [hlower, hupper])

/-- Only the digits of zero begin with zero. -/
theorem head?_toDigits_ne (h : 0 < n) : (Nat.toDigits 10 n).head? ≠ some '0' := by
  induction n using Nat.strongRecOn with
  | ind n ih =>
    by_cases hn : n < 10
    · have hdigit : ∀ d < 10, 0 < d → Nat.digitChar d ≠ '0' := by decide
      rw [Nat.toDigits_of_lt_base hn]
      simpa using hdigit n hn h
    · rw [Nat.toDigits_of_base_le (by decide) (by omega),
        List.head?_append_of_ne_nil _ Nat.toDigits_ne_nil]
      exact ih (n / 10) (by omega) (by omega)

theorem readNumeral_toDigits (atEnd : Flaw) (n : Nat) (hrest : EndsValue rest) :
    readNumeral atEnd (Nat.toDigits 10 n ++ rest) = .ok (⟨Nat.toDigits 10 n, [], none⟩, rest) := by
  have hzero : ¬ ((Nat.toDigits 10 n).head? = some '0' ∧ (Nat.toDigits 10 n).length ≠ 1) := by
    rintro ⟨hhead, hlength⟩
    rcases Nat.eq_zero_or_pos n with rfl | hn
    · exact hlength rfl
    · exact head?_toDigits_ne hn hhead
  have hdigits : ∀ d ∈ Nat.toDigits 10 n, d.isDigit = true :=
    fun d hd => Nat.isDigit_of_mem_toDigits (by decide) (by decide) hd
  have hread := readDigits_append atEnd Nat.toDigits_ne_nil hdigits hrest
  simp only [readNumeral, hread, bind, Except.bind, if_neg hzero, readFraction_of_ends atEnd hrest,
    readExponent_of_ends atEnd hrest]

theorem count?_toDigits (h : n < wordBound) :
    (⟨Nat.toDigits 10 n, [], none⟩ : Numeral).count? = some n := by
  simp [Numeral.count?, Nat.ofDigitChars_ten_toDigits, h]

theorem readNumber_toDigits (h : n < wordBound) (hrest : EndsValue rest) :
    readNumber (Nat.toDigits 10 n ++ rest) = .ok (⟨Nat.toDigits 10 n, [], none⟩, rest) := by
  rw [readNumber, readNumeral_toDigits .truncated n hrest]
  exact if_neg (by simp [count?_toDigits h])

theorem not_isBlank_of_isDigit {c : Char} (h : c.isDigit = true) : isBlank c = false := by
  by_contra hblank
  simp only [isBlank, Bool.not_eq_false, Bool.or_eq_true, beq_iff_eq] at hblank
  rcases hblank with ((rfl | rfl) | rfl) | rfl <;> cases h

/-- Every count below the bound of a word is read from its digits. -/
theorem takes_readCount (h : n < wordBound) : Takes readCount (Nat.toDigits 10 n) n := by
  intro blanks rest hblanks hrest
  obtain ⟨d, ds, hds⟩ := List.exists_cons_of_ne_nil (Nat.toDigits_ne_nil (b := 10) (n := n))
  have hd : d.isDigit = true :=
    Nat.isDigit_of_mem_toDigits (b := 10) (n := n) (by decide) (by decide)
      (hds ▸ List.mem_cons_self)
  have hnumber := readNumber_toDigits h hrest
  rw [hds, List.cons_append] at hnumber
  rw [readCount, skipBlanks_append hblanks, hds, List.cons_append,
    skipBlanks_cons (not_isBlank_of_isDigit hd)]
  simp only [hd, if_true, hnumber, bind, Except.bind, ← hds, count?_toDigits h]

theorem takes_readWord (n : UInt64) : Takes readWord (Nat.toDigits 10 n.toNat) n := by
  have hcount := (takes_readCount n.toNat_lt).map UInt64.ofNat
  rwa [UInt64.ofNat_toNat] at hcount

end word

section name

/-- A text that stands in quotes as it is. -/
def Plain (w : List Char) : Prop :=
  ∀ c ∈ w, c ≠ '"' ∧ c ≠ '\\' ∧ 0x20 ≤ c.toNat

instance (w : List Char) : Decidable (Plain w) :=
  List.decidableBAll _ w

theorem readChars_append (kept : Bool) (h : Plain w) (hspare : w.length < spare.length)
    (rest : List Char) : readChars kept spare (w ++ '"' :: rest) = .ok (w, rest) := by
  induction w generalizing spare with
  | nil =>
    obtain ⟨x, spare, rfl⟩ := List.exists_cons_of_length_pos hspare
    rfl
  | cons c w ih =>
    obtain ⟨⟨hquote, hslash, hcontrol⟩, hw⟩ := List.forall_mem_cons.mp h
    obtain ⟨x, spare, rfl⟩ := List.exists_cons_of_length_pos (Nat.zero_lt_of_lt hspare)
    rw [List.cons_append, readChars, if_neg hquote, if_neg hslash, if_neg (by omega),
      ih hw (by simpa using hspare)]
    rfl

theorem readQuoted_append (kept : Bool) (h : Plain w) (rest : List Char) :
    readQuoted kept (w ++ '"' :: rest) = .ok (w, rest) :=
  readChars_append kept h (by simp) rest

theorem takes_readString (h : Plain w) : Takes readString (quoted w) (String.ofList w) := by
  intro blanks rest hblanks _
  rw [readString, skipBlanks_append hblanks, quoted, List.cons_append, skipBlanks_cons rfl,
    List.append_assoc]
  simp only [if_true, List.singleton_append, readQuoted_append true h]
  rfl

/-- A plain name is taken for its value. -/
theorem takes_readOneOf {values : List (String × α)} {name : String} {x : α}
    (hname : Plain name.toList) (hx : values.lookup name = some x) :
    Takes (readOneOf values) (quoted name.toList) x := by
  intro blanks rest hblanks hrest
  have hstring := takes_readString hname [] rest blank_nil hrest
  rw [List.nil_append, quoted, List.cons_append, String.ofList_toList] at hstring
  have hread : readName values ('"' :: (name.toList ++ ['"'] ++ rest)) = .ok (x, rest) := by
    rw [readName, skipBlanks_cons rfl]
    simp only [if_true, hstring, bind, Except.bind, choose, hx]
  rw [readOneOf, skipBlanks_append hblanks, quoted, List.cons_append, skipBlanks_cons rfl]
  exact hread

end name

section record

/-- What stands in front of a member: blanks, with a comma among them unless it is the first. -/
def Leads : Bool → List Char → Prop
  | true, cs => Blank cs
  | false, cs => ∃ before behind, cs = before ++ ',' :: behind ∧ Blank before ∧ Blank behind

/-- Members of an object up to its closing brace, by their names and the texts of their values.
There may be blanks wherever a name or a value begins or ends. -/
inductive Members : Bool → List Char → List (String × List Char) → Prop
  | nil {first : Bool} {blanks : List Char} (hblanks : Blank blanks) :
      Members first (blanks ++ ['\x7d']) []
  | cons {first : Bool} {lead behind gap text more : List Char} {name : String}
      {members : List (String × List Char)} (hlead : Leads first lead)
      (hname : Plain name.toList) (hbehind : Blank behind) (hgap : Blank gap)
      (hmore : Members false more members) :
      Members first (lead ++ quoted name.toList ++ behind ++ ':' :: (gap ++ text ++ more))
        ((name, text) :: members)

def Object (text : List Char) (members : List (String × List Char)) : Prop :=
  ∃ body, text = '\x7b' :: body ∧ Members true body members

/-- Each member belongs to a field, which takes its text, and the record goes from one to the
next. -/
inductive Follows (fields : List (Field σ)) : σ → List (String × List Char) → σ → Prop
  | nil (record : σ) : Follows fields record [] record
  | cons {field : Field σ} {record next last : σ} {text : List Char}
      {members : List (String × List Char)} (hfield : field ∈ fields)
      (hvalue : Takes (field.value record) text next)
      (hrest : Follows fields next members last) :
      Follows fields record ((field.name, text) :: members) last

variable {fields : List (Field σ)} {start record last : σ} {first : Bool} {given : List String}
  {members : List (String × List Char)}

theorem anotherMember_end (first : Bool) (h : Blank blanks) (rest : List Char) :
    anotherMember first (blanks ++ '\x7d' :: rest) = .ok (false, rest) := by
  rw [anotherMember, skipBlanks_append h, skipBlanks_cons rfl]
  rfl

theorem anotherMember_of_leads (h : Leads first w) (rest : List Char) :
    anotherMember first (w ++ '"' :: rest) = .ok (true, rest) := by
  cases first with
  | true =>
    rw [anotherMember, skipBlanks_append h, skipBlanks_cons rfl]
    rfl
  | false =>
    obtain ⟨before, behind, rfl, hbefore, hbehind⟩ := h
    have hskip : skipBlanks (behind ++ '"' :: rest) = '"' :: rest := by
      rw [skipBlanks_append hbehind, skipBlanks_cons rfl]
    rw [anotherMember, List.append_assoc, skipBlanks_append hbefore, List.cons_append,
      skipBlanks_cons rfl]
    simp [hskip]

theorem readColon_append (h : Blank blanks) (cs : List Char) :
    readColon (blanks ++ ':' :: cs) = .ok ((), cs) := by
  rw [readColon, skipBlanks_append h, skipBlanks_cons rfl]
  rfl

/-- A member may end where the others, or the closing brace, begin. -/
theorem Members.endsValue (h : Members false text members) (rest : List Char) :
    EndsValue (text ++ rest) := by
  have hhead {before : List Char} {d : Char} {cs : List Char} (hbefore : Blank before)
      (hd : d = ',' ∨ d = ']' ∨ d = '\x7d') : EndsValue (before ++ d :: cs) := by
    intro c hc
    cases before with
    | nil =>
      obtain rfl : d = c := by simpa using hc
      exact Or.inr hd
    | cons b before =>
      obtain rfl : b = c := by simpa using hc
      exact Or.inl (hbefore b List.mem_cons_self)
  cases h with
  | nil hblanks => simpa using hhead hblanks (by simp)
  | cons hlead hname hbehind hgap hmore =>
    obtain ⟨before, behind, rfl, hbefore, -⟩ := hlead
    simpa using hhead hbefore (Or.inl rfl)

/-- Distinct names find their fields. -/
theorem find?_name (hfields : (fields.map Field.name).Nodup) {field : Field σ}
    (hfield : field ∈ fields) : (fields.find? fun f => f.name == field.name) = some field := by
  induction fields with
  | nil => cases hfield
  | cons first fields ih =>
    obtain ⟨hnew, hrest⟩ := List.nodup_cons.mp hfields
    rcases List.mem_cons.mp hfield with rfl | hfield
    · simp
    · have hne : first.name ≠ field.name := by
        intro heq
        exact hnew (heq ▸ List.mem_map_of_mem hfield)
      rw [List.find?_cons_of_neg (by simpa using hne), ih hrest hfield]

theorem readMembers_of_follows (hfields : (fields.map Field.name).Nodup)
    (h : Members first text members) (hfollows : Follows fields record members last)
    (hgiven : ∀ name ∈ members.map Prod.fst, name ∉ given)
    (hdistinct : (members.map Prod.fst).Nodup) (hspare : members.length < spare.length)
    (rest : List Char) :
    readMembers fields spare first given record (text ++ rest) = .ok (last, rest) := by
  induction h generalizing spare given record with
  | nil hblanks =>
    obtain ⟨s, spare, rfl⟩ := List.exists_cons_of_length_pos hspare
    cases hfollows
    rw [readMembers, List.append_assoc, List.singleton_append, anotherMember_end _ hblanks]
    rfl
  | @cons first lead behind gap text more name members hlead hname hbehind hgap hmore ih =>
    obtain ⟨s, spare, rfl⟩ := List.exists_cons_of_length_pos (Nat.zero_lt_of_lt hspare)
    cases hfollows with
    | @cons field _ next _ _ _ hfield hvalue hrest =>
      obtain ⟨hnew, hothers⟩ := List.forall_mem_cons.mp hgiven
      obtain ⟨hunlike, hdistinct⟩ := List.nodup_cons.mp hdistinct
      have hunknown : given.contains field.name = false := by simpa using hnew
      have hstill : ∀ name ∈ members.map Prod.fst, name ∉ field.name :: given := by
        intro name hname hmem
        rcases List.mem_cons.mp hmem with rfl | hmem
        · exact hunlike hname
        · exact hothers name hname hmem
      have htext : lead ++ quoted field.name.toList ++ behind ++ ':' :: (gap ++ text ++ more) ++
          rest = lead ++ '"' :: (field.name.toList ++
            '"' :: (behind ++ ':' :: (gap ++ (text ++ (more ++ rest))))) := by
        simp [quoted]
      rw [htext, readMembers, anotherMember_of_leads hlead]
      simp only [bind, Except.bind, if_true, readQuoted_append true hname, String.ofList_toList,
        find?_name hfields hfield, hunknown, Bool.false_eq_true, if_false,
        readColon_append hbehind, hvalue gap _ hgap (hmore.endsValue rest)]
      exact ih hrest hstill hdistinct (by simpa using hspare)

theorem Members.length_le (h : Members first text members) : members.length ≤ text.length := by
  induction h with
  | nil hblanks => exact Nat.zero_le _
  | cons hlead hname hbehind hgap hmore ih =>
    simp only [List.length_append, List.length_cons]
    omega

/-- What the fields take one after the other is read from an object. -/
theorem takes_readRecord (hfields : (fields.map Field.name).Nodup)
    (hdistinct : (members.map Prod.fst).Nodup) (h : Object text members)
    (hfollows : Follows fields start members last) : Takes (readRecord fields start) text last := by
  intro blanks rest hblanks _
  obtain ⟨body, rfl, hmembers⟩ := h
  have hspare : members.length < ('\x7b' :: (body ++ rest)).length := by
    have hlength := hmembers.length_le
    simp only [List.length_cons, List.length_append]
    omega
  rw [readRecord, skipBlanks_append hblanks, List.cons_append, skipBlanks_cons rfl]
  exact readMembers_of_follows hfields hmembers hfollows (by simp) hdistinct hspare rest

theorem blank_newLine (depth : Nat) : Blank (newLine depth) := by
  intro c hc
  rcases List.mem_cons.mp hc with rfl | hc
  · rfl
  · obtain rfl := (List.mem_replicate.mp hc).2
    rfl

/-- The members as they are written, each within one record more. -/
theorem members_writeMembers (depth : Nat) (first : Bool) {writers : List (String × Writer)}
    (h : ∀ member ∈ writers, Plain member.1.toList) :
    Members first (writeMembers depth first writers)
      (writers.map fun member => (member.1, member.2 (depth + 1))) := by
  induction writers generalizing first with
  | nil => exact .nil (blank_newLine depth)
  | cons member writers ih =>
    obtain ⟨hname, hrest⟩ := List.forall_mem_cons.mp h
    have hlead : Leads first ((if first then [] else [',']) ++ newLine (depth + 1)) := by
      cases first with
      | true => exact blank_newLine (depth + 1)
      | false => exact ⟨[], newLine (depth + 1), rfl, blank_nil, blank_newLine (depth + 1)⟩
    have hgap : Blank [' '] := by simp [Blank, isBlank]
    simpa [writeMembers] using
      Members.cons hlead hname blank_nil hgap (ih false hrest)

theorem object_writeRecord (depth : Nat) {writers : List (String × Writer)}
    (h : ∀ member ∈ writers, Plain member.1.toList) :
    Object (writeRecord writers depth)
      (writers.map fun member => (member.1, member.2 (depth + 1))) := by
  cases writers with
  | nil => exact ⟨_, rfl, .nil blank_nil⟩
  | cons member writers => exact ⟨_, rfl, members_writeMembers depth true h⟩

end record

/-- What is relied on of a library. Words are written in digits and names in quotes, records as
objects and whole texts as they stand; words are read from their digits, and a name out of a
choice from quotes. A record is read from an object whose members have distinct names, all of
them names of fields, when each field takes the text of its member. -/
structure Library.Lawful (json : Library) : Prop where
  readWord_digits : ∀ n : UInt64, Takes json.readWord (Nat.toDigits 10 n.toNat) n
  readOneOf_quoted : ∀ {α : Type} {values : List (String × α)} {name : String} {x : α},
    Plain name.toList → values.lookup name = some x →
      Takes (json.readOneOf values) (quoted name.toList) x
  readRecord_object : ∀ {σ : Type} {fields : List (Field σ)} {start last : σ}
    {members : List (String × List Char)} {text : List Char}, (fields.map Field.name).Nodup →
      (members.map Prod.fst).Nodup → Object text members → Follows fields start members last →
        Takes (json.readRecord fields start) text last
  readText_taken : ∀ {α : Type} {value : Reader α} {text : String} {x : α},
    Takes value text.toList x → json.readText value text = .ok x
  writeWord_digits : ∀ (n : UInt64) (depth : Nat),
    json.writeWord n depth = Nat.toDigits 10 n.toNat
  writeName_quoted : ∀ (name : String) (depth : Nat), Plain name.toList →
    json.writeName name depth = quoted name.toList
  writeRecord_object : ∀ (writers : List (String × Writer)) (depth : Nat),
    (∀ member ∈ writers, Plain member.1.toList) →
      Object (json.writeRecord writers depth)
        (writers.map fun member => (member.1, member.2 (depth + 1)))
  writeText_eq : ∀ value : Writer, json.writeText value = String.ofList (value 0)

theorem standard_lawful : standard.Lawful where
  readWord_digits := takes_readWord
  readOneOf_quoted := takes_readOneOf
  readRecord_object := takes_readRecord
  readText_taken := readAll_of_takes
  writeWord_digits _ _ := rfl
  writeName_quoted _ _ _ := rfl
  writeRecord_object _ depth := object_writeRecord depth
  writeText_eq _ := rfl

end Simmer.Json
