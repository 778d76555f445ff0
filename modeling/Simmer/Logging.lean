import Simmer.Text.Cut
import Simmer.Text.Escaped
import Simmer.Traced

/-!
Showing events. A log is installed once, with a level, and stays; it shows the events that
are at least as severe. The first installation counts, and a later one is refused. Messages
are escaped for a terminal, and a message with line ends in it takes several lines.
-/
namespace Simmer

/-- How an installation takes a refusal: by an answer, or by giving up. -/
inductive Insistence where
  | asks
  | insists
deriving DecidableEq, Repr

inductive Installed where
  | done
  | refused
  | gaveUp
deriving DecidableEq, Repr

/-- The level of the log, once one is installed. -/
structure Log where
  level : Option Level
deriving DecidableEq, Repr

namespace Log

def none : Log := ⟨.none⟩

def install (log : Log) (level : Level) (insistence : Insistence) : Log × Installed :=
  match log.level, insistence with
  | .none, _ => (⟨some level⟩, .done)
  | some _, .asks => (log, .refused)
  | some _, .insists => (log, .gaveUp)

/-- The answers to a sequence of installations, and the log at their end. -/
def installAll (log : Log) : List (Level × Insistence) → Log × List Installed
  | [] => (log, [])
  | (level, insistence) :: rest =>
    let (log, installed) := log.install level insistence
    let (log, others) := log.installAll rest
    (log, installed :: others)

def shows (log : Log) (event : Event) : Bool :=
  match log.level with
  | .none => false
  | some level => level.severity ≤ event.level.severity

/-- The label of the level, five characters wide and flush right, and the message. -/
def entry (event : Event) : List Char :=
  let label := event.level.label.toList
  List.replicate (5 - label.length) ' ' ++ label ++ ' ' :: Text.escaped event.message.toList

/-- The text in front of a line feed: a carriage return before it belongs to the line end. -/
def dropReturn (cs : List Char) : List Char :=
  if cs.getLast? = some '\r' then cs.dropLast else cs

/-- The printed lines, each entry with a line feed behind it. -/
def lines (log : Log) (events : List Event) : List String :=
  (events.filter log.shows).flatMap fun event =>
    (Text.piecesAt '\n' (entry event)).map fun piece => String.ofList (dropReturn piece)

end Log

namespace Event

/-- The events at a level or above it. -/
def atLeast (level : Level) (events : List Event) : List Event :=
  events.filter fun event => level.severity ≤ event.level.severity

end Event

end Simmer
