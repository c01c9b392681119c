import SequentialChart.CommandLine.Arguments
import SequentialChart.Data.Json
import SequentialChart.Diagram.Record
import SequentialChart.Failure
import SequentialChart.Simulation.Report
import SequentialChart.Toml.Document

/-!
# Running commands

What each command does with the files it is given. The files may be those of the system or of a
folder in memory.

## Main definitions

* `Config.load` — the configuration that applies.
* `Outcome`, `Invocation.run`.
-/

namespace SequentialChart

variable {m : Type → Type} [Monad m]

def FileAccess.text (files : FileAccess m) (path : String) : ExceptT Failure m String := do
  match ← files.read path with
  | .ok text => return text
  | .error fault => throw (.file fault)

namespace Config

def ofText (text : String) : Except Failure Config :=
  match (Data.ofToml? text.toList).bind (ofData? .toml) with
  | some config => .ok config
  | none => .error .unreadableConfig

def ofFile? (files : FileAccess m) (path : String) : ExceptT Failure m (Option Config) := do
  match ← files.read path with
  | .ok text => return some (← ofText text)
  | .error fault => if fault.isAbsence then return none else throw (.file fault)

/-- The configuration of the first of the files that there is, or the default one. -/
def ofFirstFile (files : FileAccess m) : List String → ExceptT Failure m Config
  | [] => return {}
  | path :: paths => do
    match ← ofFile? files path with
    | some config => return config
    | none => ofFirstFile files paths

def localPath : String := "grafcet/config.toml"

/-- The configuration that applies: the one that is asked for, or else the one of the project, or
else that of the system. -/
def load (files : FileAccess m) (explicit system : Option String) : ExceptT Failure m Config := do
  match explicit with
  | some path =>
    match ← ofFile? files path with
    | some config => return config
    | none => throw (.missingConfig path)
  | none => ofFirstFile files (localPath :: system.toList)

end Config

structure Outcome where
  output : String
  warnings : List Diagnostic := []

namespace Command

def draw (config : Config) (source : String) : Except Failure Compiled :=
  (Chart.compile config source).mapError .compile

def evaluate (expression : String) (current previous : List (String × Value)) :
    Except Failure Outcome :=
  let value := do (← Expression.parse expression).value ⟨.ofList current, .ofList previous⟩
  (value.map fun v => { output := v.text ++ "\n" : Outcome }).mapError .expression

def checkSource (path source : String) : Except Failure Outcome :=
  match Chart.checkAll source with
  | .error diagnostics => .error (.compile (.refused diagnostics))
  | .ok (_, warnings) =>
    .ok { output := path ++ ": ok (" ++ Nat.repr warnings.length ++ " warning(s))\n", warnings }

/-- The run of a scenario on a source. A scenario that cannot be read is reported before anything
about the source. -/
def simulateSource (config : Config) (source scenario : String) (json : Bool) :
    Except Failure Outcome := do
  let scenario ← (Scenario.ofData .toml (Data.ofToml? scenario.toList)).mapError .scenario
  let compiled ← draw config source
  let run ← (scenario.run (Machine.ofDiagram compiled.diagram config.pulse)).mapError .scenario
  return {
    output := if json then run.toData.prettyJson ++ "\n" else run.text scenario.name
    warnings := compiled.warnings }

def run (files : FileAccess m) (loadConfig : ExceptT Failure m Config) :
    Command → ExceptT Failure m Outcome
  | check input => do
    let _ ← loadConfig
    checkSource input (← files.text input)
  | compile input output => do
    let config ← loadConfig
    let compiled ← draw config (← files.text input)
    let json := compiled.diagram.toData.prettyJson
    match output with
    | none => return { output := json ++ "\n", warnings := compiled.warnings }
    | some path =>
      match ← files.write path json with
      | .ok _ => return { output := "", warnings := compiled.warnings }
      | .error fault => throw (.file fault)
  | simulate input scenario json => do
    let config ← loadConfig
    let source ← files.text input
    simulateSource config source (← files.text scenario) json
  | eval expression current previous => evaluate expression current previous

end Command

def Invocation.run (i : Invocation) (files : FileAccess m) (systemConfig : Option String) :
    ExceptT Failure m Outcome :=
  i.command.run files (Config.load files i.config systemConfig)

end SequentialChart
