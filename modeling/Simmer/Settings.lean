import Simmer.Json.Library
import Simmer.Level

/-!
Settings: the cap on iterations and the level below which events are not shown. They are kept as
one JSON object with two members, the cap in an object of its own. Every field has a default.
-/
namespace Simmer

def Level.ofString (name : String) : Except Json.Flaw Level :=
  Json.choose Level.names name

structure Settings where
  cap : UInt64
  level : Level
deriving DecidableEq, Repr

namespace Settings

def default : Settings := ⟨1000, .info⟩

instance : Inhabited Settings := ⟨default⟩

section library

variable (json : Json.Library)

/-- The part of the settings that bounds reductions. -/
def readLimits : Json.Reader UInt64 :=
  json.readRecord [.of "max_iterations" json.readWord fun cap _ => cap] default.cap

def fields : List (Json.Field Settings) :=
  [.of "reduction" (readLimits json) fun cap s => { s with cap },
    .of "log_level" (json.readOneOf Level.names) fun level s => { s with level }]

def read (text : String) : Except Json.Flaw Settings :=
  json.readText (json.readRecord (fields json) default) text

def writeLimits (cap : UInt64) : Json.Writer :=
  json.writeRecord [("max_iterations", json.writeWord cap)]

def write (s : Settings) : String :=
  json.writeText (json.writeRecord
    [("reduction", writeLimits json s.cap), ("log_level", json.writeName s.level.name)])

end library

def parse (text : String) : Except Json.Flaw Settings :=
  read Json.standard text

def text (s : Settings) : String :=
  s.write Json.standard

end Settings

end Simmer
