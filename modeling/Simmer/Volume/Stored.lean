import Simmer.RuleSystem
import Simmer.Settings
import Simmer.Volume.Basic

/-!
Settings and rules that are kept on a volume. Reading a path where nothing stands gives the
default settings, but no rules; writing settings makes the directories that are missing above
them.
-/
namespace Simmer

inductive VolumeFault where
  | readSettings (path : String)
  | parseSettings (path : String) (flaw : Json.Flaw)
  | writeSettings (path : String)
  | makeDirectory (path : String)
  | readRules (path : String)
  | parseRules (path : String) (fault : Fault)
deriving DecidableEq, Repr

namespace VolumeFault

def message : VolumeFault → String
  | readSettings path => "Failed to read config file: " ++ path
  | parseSettings path _ => "Failed to parse config file: " ++ path
  | writeSettings path => "Failed to write config file: " ++ path
  | makeDirectory path => "Failed to create directory: " ++ path
  | readRules path => "Failed to read file: " ++ path
  | parseRules path _ => "Failed to parse rules: " ++ path

end VolumeFault

namespace Volume

def readSettings (json : Json.Library) (v : Volume) (path : String) :
    Except VolumeFault Settings :=
  match v.find? path with
  | none => .ok .default
  | some node =>
    match node.text? with
    | none => .error (.readSettings path)
    | some content => (Settings.read json content).mapError (.parseSettings path)

def loadSettings (v : Volume) (path : String) : Except VolumeFault Settings :=
  v.readSettings Json.standard path

/-- The volume with a parent for a path: something that stands there, or a new directory. -/
def withParent (v : Volume) (path : String) : Except VolumeFault Volume :=
  if (v.find? (Path.parent path)).isSome then .ok v
  else
    match v.makeDirectories? (Path.parent path) with
    | some made => .ok made
    | none => .error (.makeDirectory (Path.parent path))

def writeSettings (json : Json.Library) (v : Volume) (path : String) (s : Settings) :
    Except VolumeFault Volume := do
  let ready ← v.withParent path
  match ready.write? path (s.write json) with
  | some written => .ok written
  | none => .error (.writeSettings path)

def saveSettings (v : Volume) (path : String) (s : Settings) : Except VolumeFault Volume :=
  v.writeSettings Json.standard path s

def loadRules (v : Volume) (path : String) : Traced (Except VolumeFault RuleSet) := do
  Traced.tell [.loading path]
  match (v.find? path).bind Node.text? with
  | none => pure (.error (.readRules path))
  | some content =>
    match RuleSet.parse content with
    | .error fault => pure (.error (.parseRules path fault))
    | .ok set =>
      Traced.tell [.loaded set.rules.length set.aliases.length]
      pure (.ok set)

/-- The system of the rules at `path`, over a table to which their aliases are added. -/
def loadSystem (v : Volume) (path : String) (table : TagTable) (settings : Settings) :
    Traced (Except VolumeFault RuleSystem) := do
  match ← v.loadRules path with
  | .error fault => pure (.error fault)
  | .ok set => pure (.ok (RuleSystem.ofRuleSet set table settings.cap.toNat))

end Volume

end Simmer
