import SequentialChart.Diagram.Neighbours
import SequentialChart.Expression.Basic
import SequentialChart.Simulation.State

/-!
# Machines

What is needed of a diagram to run it: its steps with their actions, and its transitions with their
conditions and the steps around them. Where things are drawn does not matter.

## Main definitions

* `MachineStep`, `Rule`, `Machine`, `Machine.ofDiagram`.
* `Machine.start` — the state at the start.
* `Machine.enabled` — the transitions that can fire.
* `Machine.withFlags`, `Machine.withClocks` — the variables that describe active steps.
-/

namespace SequentialChart

structure MachineStep where
  number : Nat
  isInitial : Bool
  actions : List Action

def MachineStep.id (s : MachineStep) : NodeId := .step s.number

/-- A transition between the steps that it leaves and those that it enters. It has no expression if
its condition is none. -/
structure Rule where
  id : NodeId
  condition : Option Expression
  sources : List NodeId
  targets : List NodeId

structure Machine where
  steps : List MachineStep
  rules : List Rule
  /-- The length of a pulse in seconds. -/
  pulse : Float

def storedNames (actions : List Action) : List String :=
  ((actions.filter (·.qualifier.isStored)).map (·.name)).eraseDups

/-- The name of the variable that tells whether a step is active. -/
def flagName (number : Nat) : String := "X" ++ Nat.repr number

/-- The name of the variable that tells for how many seconds a step has been active. -/
def clockName (number : Nat) : String := flagName number ++ ".t"

/-- The seconds from `since` to `now`, and none if `now` is earlier. -/
def elapsed (now since : Float) : Float :=
  let seconds := now - since
  if seconds > 0 then seconds else 0

namespace Machine

def ofDiagram {α : Type} (d : Diagram α) (pulse : Float) : Machine where
  steps := d.steps.map fun s =>
    { number := s.number, isInitial := s.isInitial, actions := s.actions }
  rules := d.transitions.map fun t =>
    { id := t.id
      condition := (Expression.parse t.condition).toOption
      sources := d.predecessors t.id
      targets := d.successors t.id }
  pulse

/-- The state at the start: the initial steps are active since `time`. -/
def start (m : Machine) (time : Float) : State :=
  (m.steps.filter (·.isInitial)).foldl (fun s step => s.activate time step.id) {}

def number? (m : Machine) (id : NodeId) : Option Nat :=
  (m.steps.find? (·.id = id)).map (·.number)

def actions (m : Machine) : List Action := m.steps.flatMap (·.actions)

end Machine

/-- Whether the transition leaves at least one step and all steps that it leaves are active. -/
def Rule.isEnabled (r : Rule) (s : State) : Bool :=
  !r.sources.isEmpty && r.sources.all (· ∈ s.active)

namespace Machine

def enabled (m : Machine) (s : State) : List NodeId := (m.rules.filter (·.isEnabled s)).map (·.id)

def withFlags (m : Machine) (values : Variables) (nodes : List NodeId) : Variables :=
  values.overlay ((nodes.filterMap m.number?).map fun n => (flagName n, .bool true))

def clockEntries (m : Machine) (now : Float) (id : NodeId) (since : Float) :
    List (String × Value) :=
  match m.number? id with
  | some n => [(flagName n, .bool true), (clockName n, .number (elapsed now since))]
  | none => []

/-- The variables with the flags and the clocks of the active steps. -/
def withClocks (m : Machine) (values : Variables) (since : OrderedMap NodeId Float) (now : Float) :
    Variables :=
  values.overlay (since.entries.flatMap fun (id, since) => m.clockEntries now id since)

end Machine

end SequentialChart
