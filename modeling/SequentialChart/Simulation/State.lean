import SequentialChart.Action
import SequentialChart.NodeId
import SequentialChart.Ordered.Set
import SequentialChart.Value

/-!
# The state of a chart

## Main definitions

* `State`, `State.activate`, `State.deactivate` — the active steps and the variables between two
  ticks.
* `Inputs` — what a tick is given.
* `Output`, `TickResult` — what a tick yields.
-/

namespace SequentialChart

structure State where
  active : OrderedSet NodeId := ∅
  /-- The steps that were active when the last tick began. -/
  previous : OrderedSet NodeId := ∅
  values : Variables := ∅
  /-- Since when each active step has been active. -/
  since : OrderedMap NodeId Float := ∅

namespace State

/-- The state after a step was entered; a step that was active before keeps its place, but its time
starts anew. -/
def activate (s : State) (time : Float) (step : NodeId) : State :=
  { s with active := s.active.insert step, since := s.since.insert step time }

def deactivate (s : State) (step : NodeId) : State :=
  { s with active := s.active.erase step, since := s.since.erase step }

/-- Whether the two states are the same up to order. -/
def agrees (s t : State) : Bool :=
  let sameMembers (a b : OrderedSet NodeId) :=
    a.toList.length == b.toList.length && a.toList.all (b.toList.contains ·)
  sameMembers s.active t.active && sameMembers s.previous t.previous &&
    Variables.agrees s.values t.values &&
    s.since.entries.length == t.since.entries.length &&
    s.since.entries.all fun (id, time) => (t.since.get? id).any (time == ·)

@[simp] theorem values_activate (s : State) (time : Float) (step : NodeId) :
    (s.activate time step).values = s.values := rfl

@[simp] theorem values_deactivate (s : State) (step : NodeId) :
    (s.deactivate step).values = s.values := rfl

@[simp] theorem mem_active_activate {s : State} {time : Float} {step other : NodeId} :
    other ∈ (s.activate time step).active ↔ other ∈ s.active ∨ other = step :=
  OrderedSet.mem_insert

@[simp] theorem mem_active_deactivate {s : State} {step other : NodeId} :
    other ∈ (s.deactivate step).active ↔ other ∈ s.active ∧ other ≠ step :=
  OrderedSet.mem_erase

end State

structure Inputs where
  time : Float
  /-- Values that replace those of the state. -/
  values : Variables := ∅
  /-- Transitions that need no condition to hold. -/
  triggers : List NodeId := []

inductive OutputKind where
  | driven (qualifier : Qualifier)
  /-- It was set earlier and nothing drives it now. -/
  | stored
  deriving DecidableEq, Repr

def OutputKind.text : OutputKind → String
  | driven qualifier => qualifier.code
  | stored => "stored"

structure Output where
  name : String
  kind : OutputKind
  deriving DecidableEq, Repr

structure TickResult where
  state : State
  /-- The transitions that fired, in diagram order. -/
  fired : List NodeId
  outputs : List Output

def TickResult.isActive (r : TickResult) (name : String) : Bool := r.outputs.any (·.name = name)

end SequentialChart
