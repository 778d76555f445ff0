/-!
Texts for a terminal. Control characters on which terminals act are written as escapes of
their code points, in two hexadecimal digits; every other character stands for itself. Line
ends and tabs are among the others, and a backslash is not escaped.
-/
namespace Simmer.Text

/-- Bell, backspace, form feed, escape and delete. -/
def isLowControl (c : Char) : Bool :=
  let n := c.toNat
  n == 0x07 || n == 0x08 || n == 0x0C || n == 0x1B || n == 0x7F

/-- The controls of eight bits. -/
def isHighControl (c : Char) : Bool :=
  0x80 ≤ c.toNat && c.toNat ≤ 0x9F

def hexPair (n : Nat) : List Char :=
  [Nat.digitChar (n / 16), Nat.digitChar (n % 16)]

def escapeChar (c : Char) : List Char :=
  if isLowControl c then '\\' :: 'x' :: hexPair c.toNat
  else if isHighControl c then '\\' :: 'u' :: '\x7b' :: hexPair c.toNat ++ ['\x7d']
  else [c]

def escaped (cs : List Char) : List Char :=
  cs.flatMap escapeChar

end Simmer.Text
