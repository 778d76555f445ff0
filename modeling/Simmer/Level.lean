/-!
How much an event matters, from traces of single matches to errors.
-/
namespace Simmer

inductive Level where
  | trace
  | debug
  | info
  | warn
  | error
deriving DecidableEq, Repr

namespace Level

def severity : Level → Nat
  | trace => 0
  | debug => 1
  | info => 2
  | warn => 3
  | error => 4

def name : Level → String
  | trace => "trace"
  | debug => "debug"
  | info => "info"
  | warn => "warn"
  | error => "error"

/-- The name as it stands in front of a message. -/
def label : Level → String
  | trace => "TRACE"
  | debug => "DEBUG"
  | info => "INFO"
  | warn => "WARN"
  | error => "ERROR"

def all : List Level := [trace, debug, info, warn, error]

/-- The levels under their names. -/
def names : List (String × Level) :=
  all.map fun level => (level.name, level)

def ofName? (name : String) : Option Level :=
  names.lookup name

end Level

end Simmer
