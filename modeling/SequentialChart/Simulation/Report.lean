import SequentialChart.Simulation.Scenario

/-!
# Reports of a run

What happened in a run, as a text with a line for each tick or as data.

## Main definitions

* `TickReport.line`, `ScenarioRun.text`.
* `ScenarioRun.toData`.
-/

namespace SequentialChart

def bracketed (items : List String) : String := "[" ++ ", ".intercalate items ++ "]"

def Output.text (o : Output) : String := o.name ++ ":" ++ o.kind.text

def Output.toData (o : Output) : Data :=
  .record [("name", .text o.name), ("value", .bool true), ("kind", .text o.kind.text)]

def Value.toData : Value → Data
  | .bool b => .bool b
  | .number x => .double x

namespace TickReport

def line (r : TickReport) : String :=
  "#" ++ Nat.repr r.index ++ " t=" ++ plainText r.time ++ "s" ++
    (match r.name with
      | some name => " [" ++ name ++ "]"
      | none => "") ++
    " fired=" ++ bracketed (r.fired.map (·.text)) ++
    " active=" ++ bracketed (r.active.map (·.text)) ++
    " outputs=" ++ bracketed (r.outputs.map (·.text))

/-- A tick as data; a name that is missing is left out. -/
def toData (r : TickReport) : Data :=
  .record <|
    [("index", .integer r.index)] ++ (r.name.map fun name => ("name", Data.text name)).toList ++
      [("time", .double r.time), ("fired", .list (r.fired.map fun id => .text id.text)),
        ("active_steps", .list (r.active.map fun id => .text id.text)),
        ("actions", .list (r.outputs.map (·.toData)))]

end TickReport

def State.toData (s : State) : Data :=
  .record [
    ("active_steps", .list (s.active.toList.map fun id => .text id.text)),
    ("previous_steps", .list (s.previous.toList.map fun id => .text id.text)),
    ("variables", .record (s.values.entries.map fun (name, value) => (name, value.toData))),
    ("activation_times", .record (s.since.entries.map fun (id, time) => (id.text, .double time)))]

namespace ScenarioRun

/-- The lines of a run: the name of its scenario, the ticks, and the state after them. -/
def lines (r : ScenarioRun) (name : Option String) : List String :=
  (name.map ("scenario: " ++ ·)).toList ++ r.reports.map (·.line) ++
    ["final: active=" ++ bracketed (r.state.active.toList.map (·.text))] ++
    r.state.values.entries.map fun (name, value) => "  " ++ name ++ " = " ++ value.text

def text (r : ScenarioRun) (name : Option String) : String :=
  String.join ((r.lines name).map (· ++ "\n"))

def toData (r : ScenarioRun) : Data :=
  .record [("ticks", .list (r.reports.map (·.toData))), ("state", r.state.toData)]

end ScenarioRun

end SequentialChart
