import Simmer.Pattern.Basic
import Simmer.Token.Reader

/-!
Reading patterns. The words before the first `!!` are the clause: collectors, then perhaps
the marker `&` or `&&`, then the body; the words after it are the veto, which is read first.
-/
namespace Simmer

namespace Clause

/-- The collectors at the front of the words, after those already declared, and the rest. -/
def readHeader (text : String) (declared : List Collector) :
    List String → Except Fault (List Collector × List String)
  | [] => .ok (declared, [])
  | word :: words => do
    match ← Token.parse word with
    | .var .collector digits qualifier =>
      let collector : Collector := ⟨digits, qualifier⟩
      if declared.any fun other => other.name == collector.name then
        .error (.invalidPattern text (.repeatedCollector collector.name))
      else readHeader text (declared ++ [collector]) words
    | _ => .ok (declared, word :: words)

def takeMarker : List String → Strictness × List String
  | [] => (.loose, [])
  | word :: words =>
    match Strictness.ofMarker? word with
    | some s => (s, words)
    | none => (.loose, word :: words)

def readBodyWord (text word : String) : Except Fault Token :=
  if (Strictness.ofMarker? word).isSome then .error (.invalidPattern text (.lateMarker word))
  else if word = "+" then .error (.invalidToken word .joinInBody)
  else do
    let t ← Token.parse word
    if t.isCollector then .error (.invalidToken word .collectorInBody) else .ok t

/-- Reads the words of a clause; faults of the whole clause name `text`. -/
def ofWords (text : String) (words : List String) : Except Fault Clause := do
  let (collectors, rest) ← readHeader text [] words
  let (strictness, rest) := takeMarker rest
  let body ← rest.mapM (readBodyWord text)
  Token.checkBase body
  if collectors = [] ∧ body = [] then .error (.invalidPattern text .emptyPattern)
  else .ok ⟨collectors, strictness, body⟩

end Clause

namespace Pattern

/-- The words before the first veto mark, and the runs of words behind each of the marks. -/
def segments : List String → List String × List (List String)
  | [] => ([], [])
  | word :: words =>
    let (first, others) := segments words
    if word = vetoMark then ([], first :: others) else (word :: first, others)

def joinSegments (first : List String) (others : List (List String)) : List String :=
  first ++ others.flatMap (vetoMark :: ·)

def ofSegments (text : String) (first : List String) :
    List (List String) → Except Fault Pattern
  | [] => do
    let clause ← Clause.ofWords text first
    .ok (.plain clause)
  | next :: others =>
    if next = [] ∧ others = [] then .error (.invalidPattern text .missingVeto)
    else do
      let veto ← ofSegments (Text.unwords (joinSegments next others)) next others
      let clause ← Clause.ofWords text first
      .ok (.unless clause veto)

def parse (text : String) : Except Fault Pattern :=
  let (first, others) := segments (Text.words text)
  ofSegments text first others

theorem joinSegments_segments (words : List String) :
    joinSegments (segments words).1 (segments words).2 = words := by
  induction words with
  | nil => rfl
  | cons word words ih =>
    by_cases h : word = vetoMark
    · simpa [segments, joinSegments, h] using ih
    · simpa [segments, joinSegments, h] using ih

end Pattern

end Simmer
