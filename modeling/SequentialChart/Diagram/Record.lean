import SequentialChart.Data.Basic
import SequentialChart.Diagram.Basic

/-!
# Diagrams and actions as records

The form in which diagrams are written to files, and in which actions are also read from them.

## Main definitions

* `Action.toData`, `Action.ofData?`.
* `Diagram.toData`.
-/

namespace SequentialChart

def optionalEntry {α : Type} (name : String) (put : α → Data) (a : Option α) :
    List (String × Data) :=
  match a with
  | some a => [(name, put a)]
  | none => []

namespace Action

def entryNames : List String := ["name", "qualifier", "condition", "duration"]

/-- The action as a record. The condition is written as it stands, even if it is blank. -/
def toData (a : Action) : Data :=
  .record <| [("name", .text a.name), ("qualifier", .text a.qualifier.code)] ++
    optionalEntry "condition" .text a.condition ++ optionalEntry "duration" .double a.duration

/-- The action that a record describes. Everything but the name may be missing; a qualifier is given
by its letters. -/
def ofData? (format : DataFormat) (d : Data) : Option Action := do
  let d ← d.asRecord? format entryNames
  let name ← (← d.entry? "name").toText?
  let qualifier ← d.entryOr "qualifier" .nonStored fun q =>
    (q.toChoice? format).bind Qualifier.ofCode?
  let condition ← d.entryOr "condition" none (Data.optional Data.toText?)
  let duration ← d.entryOr "duration" none (Data.optional Data.toFloat?)
  return { name, qualifier, condition, duration }

/-- An action is read back from its record. -/
theorem ofData?_toData (format : DataFormat) (a : Action) : ofData? format a.toData = some a := by
  obtain ⟨name, qualifier, condition, duration⟩ := a
  cases condition <;> cases duration <;>
    simp [ofData?, toData, Data.asRecord?, entryNames, optionalEntry, Data.entryOr, Data.entry?,
      Data.optional, Data.toText?, Data.toFloat?, List.lookup_cons]

end Action

def Point.toData (p : Point Float32) : Data := .record [("x", .single p.x), ("y", .single p.y)]

def Size.toData (s : Size Float32) : Data :=
  .record [("width", .single s.width), ("height", .single s.height)]

def StepNode.toData (s : StepNode Float32) : Data :=
  .record <|
    [("id", .text s.id.text), ("number", .integer s.number), ("kind", .text s.kind.text)] ++
    optionalEntry "label" .text s.label ++
    [("position", s.position.toData), ("size", s.size.toData),
     ("actions", .list (s.actions.map (·.toData)))] ++
    optionalEntry "linked_file" .text s.linkedFile

def TransitionNode.toData (t : TransitionNode Float32) : Data :=
  .record [("id", .text t.id.text), ("number", .integer t.number), ("condition", .text t.condition),
    ("position", t.position.toData), ("size", t.size.toData)]

def Junction.fileText : Junction → String
  | and => "and"
  | or => "or"

def GateMode.fileText : GateMode → String
  | divergence => "divergence"
  | convergence => "convergence"

def GateNode.toData (g : GateNode Float32) : Data :=
  .record [("id", .text g.id.text), ("kind", .text g.junction.fileText),
    ("mode", .text g.mode.fileText), ("branch_count", .integer g.branchCount),
    ("position", g.position.toData), ("size", g.size.toData)]

def Connection.toData (c : Connection Float32) : Data :=
  .record [("source", .text c.source.text), ("target", .text c.target.text),
    ("points", .list (c.points.map (·.toData)))]

def Diagram.toData (d : Diagram Float32) : Data :=
  .record <| optionalEntry "title" .text d.title ++
    [("steps", .list (d.steps.map (·.toData))),
     ("transitions", .list (d.transitions.map (·.toData))),
     ("gates", .list (d.gates.map (·.toData))),
     ("connections", .list (d.connections.map (·.toData)))]

end SequentialChart
