/-!
Blank characters, and the cuts of a text that they decide: its words, and the text
without the blanks at its ends. Blank means the Unicode property White_Space, so
`isBlank` is a table of code points and not the ASCII test on characters.
-/
namespace Simmer.Text

/-- Membership in the Unicode property White_Space, by code point. -/
def isBlank (c : Char) : Bool :=
  let n := c.toNat
  (0x09 ≤ n && n ≤ 0x0D) || n == 0x20 || n == 0x85 || n == 0xA0 || n == 0x1680 ||
    (0x2000 ≤ n && n ≤ 0x200A) || n == 0x2028 || n == 0x2029 || n == 0x202F ||
    n == 0x205F || n == 0x3000

/-- Put a word in front of others; the empty word is no word. -/
def consWord (w : List Char) (ws : List (List Char)) : List (List Char) :=
  if w.isEmpty then ws else w :: ws

/-- The ink a text begins with, which may be none, and the words after it. -/
def inkThenWords : List Char → List Char × List (List Char)
  | [] => ([], [])
  | c :: cs =>
    let (w, ws) := inkThenWords cs
    if isBlank c then ([], consWord w ws) else (c :: w, ws)

/-- The maximal runs of characters that are not blank, from left to right. -/
def wordsOf (cs : List Char) : List (List Char) :=
  let (w, ws) := inkThenWords cs
  consWord w ws

def words (s : String) : List String :=
  (wordsOf s.toList).map String.ofList

def trimStart (cs : List Char) : List Char :=
  cs.dropWhile isBlank

/-- Drop the blanks at the end: a character stays when ink stands at it or after it. -/
def trimEnd : List Char → List Char
  | [] => []
  | c :: cs =>
    match trimEnd cs with
    | [] => if isBlank c then [] else [c]
    | d :: ds => c :: d :: ds

def trim (cs : List Char) : List Char :=
  trimEnd (trimStart cs)

/-- A text that is one word: it has ink, and no blank anywhere. -/
def isWord (cs : List Char) : Bool :=
  !cs.isEmpty && !cs.any isBlank

/-- Words joined by single spaces. -/
def unwords (ws : List String) : String :=
  " ".intercalate ws

theorem inkThenWords_nil : inkThenWords [] = ([], []) := rfl

theorem inkThenWords_cons_blank {c : Char} (h : isBlank c = true) (cs : List Char) :
    inkThenWords (c :: cs) = ([], wordsOf cs) := by
  simp [inkThenWords, wordsOf, h]

theorem inkThenWords_cons_ink {c : Char} (h : isBlank c = false) (cs : List Char) :
    inkThenWords (c :: cs) = (c :: (inkThenWords cs).1, (inkThenWords cs).2) := by
  simp [inkThenWords, h]

theorem wordsOf_cons_blank {c : Char} (h : isBlank c = true) (cs : List Char) :
    wordsOf (c :: cs) = wordsOf cs := by
  rw [wordsOf, inkThenWords_cons_blank h]
  simp [consWord]

end Simmer.Text
