/-!
The smallest parts of JSON text: literals, numerals and quoted strings. A text is refused for
the first flaw met from left to right: it is malformed, it holds a value of the wrong kind, or
it ends too early. A reader takes what it reads from the front and returns the rest.
-/
namespace Simmer.Json

inductive Flaw where
  | malformed
  | mismatched
  | truncated
deriving DecidableEq, Repr

abbrev Reader (α : Type) := List Char → Except Flaw (α × List Char)

/-- JSON has four blanks of its own. -/
def isBlank (c : Char) : Bool :=
  c == ' ' || c == '\n' || c == '\t' || c == '\r'

def skipBlanks (cs : List Char) : List Char :=
  cs.dropWhile isBlank

/-- Takes the letters of a literal. -/
def literal : List Char → Reader Unit
  | [], cs => .ok ((), cs)
  | _ :: _, [] => .error .truncated
  | l :: ls, c :: cs => if c = l then literal ls cs else .error .malformed

/-- A numeral by its parts: the digits in front of the point, those behind it, and the
exponent with its sign. The sign of the numeral is not among them. -/
structure Numeral where
  whole : List Char
  fraction : List Char
  exponent : Option (Bool × List Char)
deriving DecidableEq, Repr

/-- A run of one or more digits. -/
def readDigits (atEnd : Flaw) : Reader (List Char) := fun cs =>
  match cs.takeWhile Char.isDigit, cs.dropWhile Char.isDigit with
  | [], [] => .error atEnd
  | [], _ :: _ => .error .malformed
  | d :: ds, rest => .ok (d :: ds, rest)

def readFraction (atEnd : Flaw) : Reader (List Char)
  | [] => .ok ([], [])
  | c :: cs => if c = '.' then readDigits atEnd cs else .ok ([], c :: cs)

/-- A sign in front of an exponent; `true` is minus. -/
def takeSign : List Char → Bool × List Char
  | [] => (false, [])
  | c :: cs => if c = '-' then (true, cs) else if c = '+' then (false, cs) else (false, c :: cs)

def readExponent (atEnd : Flaw) : Reader (Option (Bool × List Char))
  | [] => .ok (none, [])
  | c :: cs =>
    if c = 'e' ∨ c = 'E' then do
      let (minus, cs) := takeSign cs
      let (digits, rest) ← readDigits atEnd cs
      .ok (some (minus, digits), rest)
    else .ok (none, c :: cs)

/-- A numeral without a sign. Only the lone digit zero may begin with zero. -/
def readNumeral (atEnd : Flaw) : Reader Numeral := fun cs => do
  let (whole, cs) ← readDigits atEnd cs
  if whole.head? = some '0' ∧ whole.length ≠ 1 then .error .malformed
  else
    let (fraction, cs) ← readFraction atEnd cs
    let (exponent, cs) ← readExponent atEnd cs
    .ok (⟨whole, fraction, exponent⟩, cs)

/-- The bound of the 64-bit words in which counts and significands are held. -/
def wordBound : Nat := 18446744073709551616

/-- Append digits to a significand while it stays below the bound; the first digit that
exceeds it ends this. Also counts the digits that are left. -/
def significand (s : Nat) : List Char → Nat × Nat
  | [] => (s, 0)
  | c :: cs =>
    let next := 10 * s + (c.toNat - '0'.toNat)
    if next < wordBound then significand next cs else (s, cs.length + 1)

/-- The nearest number with 53 binary digits, a tie going to the even one. -/
def round53 (n : Nat) : Nat :=
  let shift := n.log2 - 52
  let unit := Nat.pow 2 shift
  let down := n / unit
  let twice := 2 * (n % unit)
  if unit < twice ∨ (twice = unit ∧ down % 2 = 1) then (down + 1) * unit else down * unit

namespace Numeral

/-- The value of a numeral that is a count: digits alone, and below the bound of a word. -/
def count? (n : Numeral) : Option Nat :=
  let value := Nat.ofDigitChars 10 n.whole 0
  if n.fraction = [] ∧ n.exponent = none ∧ value < wordBound then some value else none

/-- The significand and the power of ten to which a numeral comes down. -/
def scaled (n : Numeral) : Nat × Int :=
  let (whole, beyond) := significand 0 n.whole
  let (all, dropped) := significand whole n.fraction
  let power : Int :=
    match n.exponent with
    | none => 0
    | some (minus, digits) =>
      let size := Nat.ofDigitChars 10 digits 0
      if minus then -(size : Int) else size
  (all, power + beyond - ((n.fraction.length - dropped : Nat) : Int))

/-- Whether a numeral exceeds every number of 53 binary digits and an exponent below 1024,
when significand and power of ten are rounded before their product is. -/
def exceedsDouble (n : Numeral) : Bool :=
  let (s, power) := n.scaled
  if s = 0 ∨ power < 0 then false
  else if 308 < power then true
  else Nat.pow 2 1024 - Nat.pow 2 970 ≤ round53 s * round53 (Nat.pow 10 power.toNat)

end Numeral

/-- A numeral as a value: one that is no count must not exceed the range of a double. -/
def readNumber : Reader Numeral := fun cs => do
  let (n, rest) ← readNumeral .truncated cs
  if n.count? = none ∧ n.exceedsDouble = true then .error .malformed else .ok (n, rest)

def hexDigit? (c : Char) : Option Nat :=
  if c.isDigit then some (c.toNat - '0'.toNat)
  else if 'a' ≤ c ∧ c ≤ 'f' then some (c.toNat - 'a'.toNat + 10)
  else if 'A' ≤ c ∧ c ≤ 'F' then some (c.toNat - 'A'.toNat + 10)
  else none

/-- The size of a text in bytes. -/
def byteSize (cs : List Char) : Nat :=
  cs.foldl (fun size c => size + c.utf8Size) 0

/-- Four hexadecimal digits. A text with fewer than four bytes left counts as ended. -/
def readHex : Reader Nat := fun cs =>
  if byteSize (cs.take 4) < 4 then .error .truncated
  else
    match (cs.take 4).mapM hexDigit? with
    | some [a, b, c, d] => .ok (((a * 16 + b) * 16 + c) * 16 + d, cs.drop 4)
    | _ => .error .malformed

def isLeading (n : Nat) : Bool :=
  0xD800 ≤ n && n ≤ 0xDBFF

def isTrailing (n : Nat) : Bool :=
  0xDC00 ≤ n && n ≤ 0xDFFF

/-- The trailing half of a pair, as a second escape, and the character that the pair means. -/
def readTrailing (leading : Nat) : Reader Char := fun cs => do
  let ((), cs) ← literal ['\\', 'u'] cs
  let (trailing, cs) ← readHex cs
  if isTrailing trailing then
    .ok (Char.ofNat (0x10000 + (leading - 0xD800) * 0x400 + (trailing - 0xDC00)), cs)
  else .error .malformed

/-- A character by its four digits. When the text is not kept, halves of pairs may stand
alone. -/
def readUnicode (kept : Bool) : Reader Char := fun cs => do
  let (n, cs) ← readHex cs
  if kept = true ∧ isTrailing n = true then .error .malformed
  else if kept = true ∧ isLeading n = true then readTrailing n cs
  else .ok (Char.ofNat n, cs)

/-- What stands behind a backslash. -/
def readEscape (kept : Bool) : Reader Char
  | [] => .error .truncated
  | c :: cs =>
    match c with
    | '"' => .ok ('"', cs)
    | '\\' => .ok ('\\', cs)
    | '/' => .ok ('/', cs)
    | 'b' => .ok ('\x08', cs)
    | 'f' => .ok ('\x0c', cs)
    | 'n' => .ok ('\n', cs)
    | 'r' => .ok ('\r', cs)
    | 't' => .ok ('\t', cs)
    | 'u' => readUnicode kept cs
    | _ => .error .malformed

/-- A string up to its closing quote, in no more characters and escapes than `spare` is long. -/
def readChars (kept : Bool) : (spare : List Char) → Reader (List Char)
  | [], _ => .error .truncated
  | _, [] => .error .truncated
  | _ :: spare, c :: cs =>
    if c = '"' then .ok ([], cs)
    else if c = '\\' then do
      let (e, cs) ← readEscape kept cs
      let (more, rest) ← readChars kept spare cs
      .ok (e :: more, rest)
    else if c.toNat < 0x20 then .error .malformed
    else do
      let (more, rest) ← readChars kept spare cs
      .ok (c :: more, rest)

/-- A string whose opening quote has been taken. -/
def readQuoted (kept : Bool) : Reader (List Char) := fun cs =>
  readChars kept cs cs

end Simmer.Json
