import SequentialChart.Diagram.Basic

/-!
# The steps around a transition

A transition leads from steps to steps, but in a diagram gates may lie between. The steps before and
after a transition are found by following the connections through gates. On the way forward, a
transition that stands right behind a gate is passed as well: the branches of an OR divergence end
with transitions of their own, so that one behind the convergence decides nothing.

## Main definitions

* `Direction`, `Diagram.neighbours` — the nodes at the other ends of the connections of a node.
* `Diagram.explore` — the nodes met on the way.
* `Diagram.predecessors`, `Diagram.successors` — the steps around a transition, in diagram order.
-/

namespace SequentialChart

inductive Direction where
  | backward
  | forward
  deriving DecidableEq, Repr

variable {α : Type}

namespace Diagram

def neighbours (d : Diagram α) (direction : Direction) (id : NodeId) : List NodeId :=
  match direction with
  | .backward => (d.incoming id).map (·.source)
  | .forward => (d.outgoing id).map (·.target)

/-- A node to visit, and whether it was met behind a gate. -/
abbrev Visit := NodeId × Bool

def beyond (d : Diagram α) (direction : Direction) (visit : Visit) : List Visit :=
  match d.node? visit.1 with
  | some (.gate _) => (d.neighbours direction visit.1).map (·, true)
  | some (.transition _) =>
    if visit.2 && direction = .forward then (d.neighbours direction visit.1).map (·, false) else []
  | _ => []

/-- The nodes met from the pending visits on, depth first, without those in `seen`; `fuel` bounds
the number of visits. -/
def explore (d : Diagram α) (direction : Direction) : Nat → List NodeId → List Visit → List NodeId
  | 0, _, _ => []
  | _, _, [] => []
  | fuel + 1, seen, visit :: pending =>
    if visit.1 ∈ seen then d.explore direction fuel seen pending
    else visit.1 :: d.explore direction fuel (visit.1 :: seen) (d.beyond direction visit ++ pending)

/-- The nodes met from a node on. Every connection leads to at most one visit from the node itself
and one from its other end, which bounds the visits. -/
def reach (d : Diagram α) (direction : Direction) (id : NodeId) : List NodeId :=
  d.explore direction (2 * d.connections.length) [id] ((d.neighbours direction id).map (·, false))

def stepIds (d : Diagram α) : List NodeId := (d.steps.map (·.id)).eraseDups

/-- The steps met from a node on, in diagram order. -/
def stepsBeyond (d : Diagram α) (direction : Direction) (id : NodeId) : List NodeId :=
  let met := d.reach direction id
  d.stepIds.filter (met.contains ·)

def predecessors (d : Diagram α) (transition : NodeId) : List NodeId :=
  d.stepsBeyond .backward transition

def successors (d : Diagram α) (transition : NodeId) : List NodeId :=
  d.stepsBeyond .forward transition

theorem mem_stepsBeyond {d : Diagram α} {direction : Direction} {id s : NodeId} :
    s ∈ d.stepsBeyond direction id ↔
      (∃ step ∈ d.steps, step.id = s) ∧ s ∈ d.reach direction id := by
  simp [stepsBeyond, stepIds, List.mem_eraseDups]

end Diagram

end SequentialChart
