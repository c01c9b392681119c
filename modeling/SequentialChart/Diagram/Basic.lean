import SequentialChart.Directive.Basic
import SequentialChart.Geometry
import SequentialChart.NodeId

/-!
# Diagrams

A diagram is a chart that has been drawn: steps, transitions and the bars of divergences and
convergences, each with its place, and the lines that connect them.

## Main definitions

* `StepNode`, `TransitionNode`, `GateNode`, `Connection`, `Diagram`.
* `Diagram.node?`, `Diagram.step?`, `Diagram.incoming`, `Diagram.outgoing`, `Diagram.bounds?`.
-/

namespace SequentialChart

structure StepNode (α : Type) where
  number : Nat
  kind : StepKind
  label : Option String
  position : Point α
  size : Size α
  actions : List Action
  linkedFile : Option String

structure TransitionNode (α : Type) where
  number : Nat
  condition : String
  position : Point α
  size : Size α

inductive GateMode where
  | divergence
  | convergence
  deriving DecidableEq, Repr

/-- The bar at which branches begin or end. -/
structure GateNode (α : Type) where
  index : Nat
  junction : Junction
  mode : GateMode
  branchCount : Nat
  position : Point α
  size : Size α

/-- A line through points, from the bottom of a node to the top of a node. -/
structure Connection (α : Type) where
  source : NodeId
  target : NodeId
  points : List (Point α)

/-- A chart that has been drawn. The nodes of each kind stand in the order in which they were
placed. -/
structure Diagram (α : Type) where
  title : Option String
  steps : List (StepNode α)
  transitions : List (TransitionNode α)
  gates : List (GateNode α)
  connections : List (Connection α)

variable {α : Type}

namespace StepNode

def id (s : StepNode α) : NodeId := .step s.number

def bounds [Length α] (s : StepNode α) : Bounds α := .ofPosition s.position s.size

def isInitial (s : StepNode α) : Bool := s.kind = .initial

end StepNode

namespace TransitionNode

def id (t : TransitionNode α) : NodeId := .transition t.number

def bounds [Length α] (t : TransitionNode α) : Bounds α := .ofPosition t.position t.size

end TransitionNode

namespace GateNode

def id (g : GateNode α) : NodeId := .gate g.index

def bounds [Length α] (g : GateNode α) : Bounds α := .ofPosition g.position g.size

end GateNode

inductive Node (α : Type) where
  | step (s : StepNode α)
  | transition (t : TransitionNode α)
  | gate (g : GateNode α)

namespace Node

def id : Node α → NodeId
  | step s => s.id
  | transition t => t.id
  | gate g => g.id

def bounds [Length α] : Node α → Bounds α
  | step s => s.bounds
  | transition t => t.bounds
  | gate g => g.bounds

end Node

namespace Diagram

def nodes (d : Diagram α) : List (Node α) :=
  d.steps.map .step ++ d.transitions.map .transition ++ d.gates.map .gate

/-- The step with the identifier. If several bear it, it is the last one; so it is with transitions
and gates. -/
def step? (d : Diagram α) (id : NodeId) : Option (StepNode α) := d.steps.reverse.find? (·.id = id)

def transition? (d : Diagram α) (id : NodeId) : Option (TransitionNode α) :=
  d.transitions.reverse.find? (·.id = id)

def gate? (d : Diagram α) (id : NodeId) : Option (GateNode α) := d.gates.reverse.find? (·.id = id)

def node? (d : Diagram α) (id : NodeId) : Option (Node α) := d.nodes.reverse.find? (·.id = id)

def initialSteps (d : Diagram α) : List (StepNode α) := d.steps.filter (·.isInitial)

def incoming (d : Diagram α) (id : NodeId) : List (Connection α) :=
  d.connections.filter (·.target = id)

def outgoing (d : Diagram α) (id : NodeId) : List (Connection α) :=
  d.connections.filter (·.source = id)

def bounds? [Length α] (d : Diagram α) : Option (Bounds α) :=
  Bounds.extent? (d.nodes.map (·.bounds))

theorem mem_nodes_of_node? {d : Diagram α} {id : NodeId} {n : Node α} (h : d.node? id = some n) :
    n ∈ d.nodes ∧ n.id = id :=
  ⟨List.mem_reverse.1 (List.mem_of_find?_eq_some h), by simpa using List.find?_some h⟩

end Diagram

end SequentialChart
