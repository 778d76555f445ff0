import Simmer.Json.Scalar

/-!
Reading JSON values of a known kind. A value of another kind is mismatched, but only once as
much of it has been read as tells its kind. Values nobody asks for are skipped, and their
grammar is checked all the same.
-/
namespace Simmer.Json

variable {α σ : Type}

/-- The flaw of a value that should be of another kind: its own flaw, if it has one. -/
def flawOr (result : Except Flaw α) : Flaw :=
  match result with
  | .error flaw => flaw
  | .ok _ => .mismatched

/-- The flaw of the value in front, which is not of the kind expected there. -/
def mismatch : List Char → Flaw
  | [] => .truncated
  | c :: cs =>
    if c = 'n' then flawOr (literal ['u', 'l', 'l'] cs)
    else if c = 't' then flawOr (literal ['r', 'u', 'e'] cs)
    else if c = 'f' then flawOr (literal ['a', 'l', 's', 'e'] cs)
    else if c = '-' then flawOr (readNumber cs)
    else if c.isDigit then flawOr (readNumber (c :: cs))
    else if c = '"' then flawOr (readQuoted true cs)
    else if c = '[' ∨ c = '\x7b' then .mismatched
    else .malformed

def readString : Reader String := fun cs =>
  match skipBlanks cs with
  | [] => .error .truncated
  | c :: cs =>
    if c = '"' then do
      let (text, rest) ← readQuoted true cs
      .ok (String.ofList text, rest)
    else .error (mismatch (c :: cs))

/-- A count below the bound of a word. -/
def readCount : Reader Nat := fun cs =>
  match skipBlanks cs with
  | [] => .error .truncated
  | c :: cs =>
    if c.isDigit then do
      let (n, rest) ← readNumber (c :: cs)
      match n.count? with
      | some value => .ok (value, rest)
      | none => .error .mismatched
    else .error (mismatch (c :: cs))

/-- A count as a word of 64 bits. -/
def readWord : Reader UInt64 := fun cs =>
  (readCount cs).map fun (n, rest) => (UInt64.ofNat n, rest)

def readNull : Reader Unit := fun cs =>
  match skipBlanks cs with
  | [] => .error .truncated
  | c :: cs =>
    if c = 'n' then literal ['u', 'l', 'l'] cs else .error (mismatch (c :: cs))

def readColon : Reader Unit := fun cs =>
  match skipBlanks cs with
  | [] => .error .truncated
  | c :: cs => if c = ':' then .ok ((), cs) else .error .malformed

/-- The value under a name. A name that no value has is a mismatch. -/
def choose (values : List (String × α)) (name : String) : Except Flaw α :=
  match values.lookup name with
  | some x => .ok x
  | none => .error .mismatched

/-- A value by its name in quotes. Whatever else stands there is malformed. -/
def readName (values : List (String × α)) : Reader α := fun cs =>
  match skipBlanks cs with
  | [] => .error .truncated
  | c :: cs =>
    if c = '"' then do
      let (name, rest) ← readString (c :: cs)
      let x ← choose values name
      .ok (x, rest)
    else .error .malformed

/-- One of the values, by its name or as an object with that name for the key of a null. -/
def readOneOf (values : List (String × α)) : Reader α := fun cs =>
  match skipBlanks cs with
  | [] => .error .truncated
  | c :: cs =>
    if c = '\x7b' then do
      let (x, cs) ← readName values cs
      let ((), cs) ← readColon cs
      let ((), cs) ← readNull cs
      match skipBlanks cs with
      | [] => .error .truncated
      | d :: rest => if d = '\x7d' then .ok (x, rest) else .error .malformed
    else readName values (c :: cs)

/-- Whether another item of a list follows, at whose front the rest then is. -/
def anotherItem (first : Bool) : Reader Bool := fun cs =>
  match skipBlanks cs with
  | [] => .error .truncated
  | c :: cs =>
    if c = ']' then .ok (false, c :: cs)
    else if first then .ok (true, c :: cs)
    else if c = ',' then
      match skipBlanks cs with
      | [] => .error .truncated
      | d :: ds => if d = ']' then .error .malformed else .ok (true, d :: ds)
    else .error .malformed

/-- The bracket that ends a list. -/
def readListEnd : Reader Unit := fun cs =>
  match skipBlanks cs with
  | [] => .error .truncated
  | c :: cs => if c = ']' then .ok ((), cs) else .error .malformed

/-- Whether another member of an object follows; its opening quote is then taken. -/
def anotherMember (first : Bool) : Reader Bool := fun cs =>
  match skipBlanks cs with
  | [] => .error .truncated
  | c :: cs =>
    if c = '\x7d' then .ok (false, cs)
    else if first then if c = '"' then .ok (true, cs) else .error .malformed
    else if c = ',' then
      match skipBlanks cs with
      | [] => .error .truncated
      | d :: ds => if d = '"' then .ok (true, ds) else .error .malformed
    else .error .malformed

/-- The items of a list behind its opening bracket, fewer than `spare` is long. -/
def readItems (item : Reader α) : (spare : List Char) → Bool → Reader (List α)
  | [], _, _ => .error .truncated
  | _ :: spare, first, cs => do
    let (more, cs) ← anotherItem first cs
    if more then
      let (x, cs) ← item cs
      let (xs, cs) ← readItems item spare false cs
      .ok (x :: xs, cs)
    else
      let ((), cs) ← readListEnd cs
      .ok ([], cs)

def readList (item : Reader α) : Reader (List α) := fun cs =>
  match skipBlanks cs with
  | [] => .error .truncated
  | c :: cs =>
    if c = '[' then readItems item (c :: cs) true cs else .error (mismatch (c :: cs))

mutual
/-- Takes one value of any kind, within at most so many nested calls. -/
def skipValue : Nat → Reader Unit
  | 0, _ => .error .truncated
  | calls + 1, cs =>
    match skipBlanks cs with
    | [] => .error .truncated
    | c :: cs =>
      if c = 'n' then literal ['u', 'l', 'l'] cs
      else if c = 't' then literal ['r', 'u', 'e'] cs
      else if c = 'f' then literal ['a', 'l', 's', 'e'] cs
      else if c = '-' then (readNumeral .malformed cs).map fun (_, rest) => ((), rest)
      else if c.isDigit then (readNumeral .malformed (c :: cs)).map fun (_, rest) => ((), rest)
      else if c = '"' then (readQuoted false cs).map fun (_, rest) => ((), rest)
      else if c = '[' then skipItems calls true cs
      else if c = '\x7b' then skipMembers calls true cs
      else .error .malformed

def skipItems : Nat → Bool → Reader Unit
  | 0, _, _ => .error .truncated
  | calls + 1, first, cs => do
    let (more, cs) ← anotherItem first cs
    if more then
      let ((), cs) ← skipValue calls cs
      skipItems calls false cs
    else readListEnd cs

def skipMembers : Nat → Bool → Reader Unit
  | 0, _, _ => .error .truncated
  | calls + 1, first, cs => do
    let (more, cs) ← anotherMember first cs
    if more then
      let (_, cs) ← readQuoted false cs
      let ((), cs) ← readColon cs
      let ((), cs) ← skipValue calls cs
      skipMembers calls false cs
    else .ok ((), cs)
end

/-- Takes one value of any kind. -/
def skip : Reader Unit := fun cs =>
  skipValue (2 * cs.length + 2) cs

/-- A field of a record: its name, and how a value for it is read into the record. -/
structure Field (σ : Type) where
  name : String
  value : σ → Reader σ

/-- A field whose values are read alike whatever the record holds. -/
def Field.of (name : String) (value : Reader α) (put : α → σ → σ) : Field σ :=
  ⟨name, fun record cs => (value cs).map fun (x, rest) => (put x record, rest)⟩

/-- The members of an object behind its opening brace, fewer than `spare` is long. A field that
was given before is refused at its name, and members of other names are passed over. -/
def readMembers (fields : List (Field σ)) :
    (spare : List Char) → Bool → List String → σ → Reader σ
  | [], _, _, _, _ => .error .truncated
  | _ :: spare, first, given, record, cs => do
    let (more, cs) ← anotherMember first cs
    if more then
      let (name, cs) ← readQuoted true cs
      match fields.find? fun field => field.name == String.ofList name with
      | none =>
        let ((), cs) ← readColon cs
        let ((), cs) ← skip cs
        readMembers fields spare false given record cs
      | some field =>
        if given.contains field.name then .error .mismatched
        else
          let ((), cs) ← readColon cs
          let (record, cs) ← field.value record cs
          readMembers fields spare false (field.name :: given) record cs
    else .ok (record, cs)

/-- The fields in their order, of which the last ones may be missing. -/
def readPlaces : List (Field σ) → Bool → σ → Reader σ
  | [], _, record, cs => do
    let ((), cs) ← readListEnd cs
    .ok (record, cs)
  | field :: fields, first, record, cs => do
    let (more, cs) ← anotherItem first cs
    if more then
      let (record, cs) ← field.value record cs
      readPlaces fields false record cs
    else
      let ((), cs) ← readListEnd cs
      .ok (record, cs)

/-- A record as an object, or as the list of its fields. Fields that are missing stay as they
are at the start. -/
def readRecord (fields : List (Field σ)) (start : σ) : Reader σ := fun cs =>
  match skipBlanks cs with
  | [] => .error .truncated
  | c :: cs =>
    if c = '\x7b' then readMembers fields (c :: cs) true [] start cs
    else if c = '[' then readPlaces fields true start cs
    else .error (mismatch (c :: cs))

/-- Reads a whole text as one value. -/
def readAll (value : Reader α) (text : String) : Except Flaw α := do
  let (x, rest) ← value text.toList
  match skipBlanks rest with
  | [] => .ok x
  | _ :: _ => .error .malformed

end Simmer.Json
