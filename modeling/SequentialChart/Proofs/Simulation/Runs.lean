import Mathlib
import SequentialChart.Simulation.Tick

/-!
# Runs

A run begins with the state at the start and goes on tick by tick. Whatever is given to its ticks,
a run has exactly one state after each of them.

## Main definitions

* `Stimulus` — what one tick is given.
* `Machine.stateAfter` — the state after a run.

## Main statements

* `Machine.get?_since_tick` — what a tick does to the times of steps.
-/

namespace SequentialChart

/-- What the outside gives to one tick. -/
structure Stimulus where
  inputs : Inputs
  globals : List Action

namespace State

variable {s : State} {time : Float} {x : NodeId}

theorem get?_since_foldl_deactivate {l : List NodeId} :
    (l.foldl deactivate s).since.get? x = if x ∈ l then none else s.since.get? x := by
  induction l generalizing s with
  | nil => simp
  | cons y l ih =>
    rw [List.foldl_cons, ih, deactivate, OrderedMap.get?_erase]
    grind

theorem get?_since_foldl_activate {l : List NodeId} :
    (l.foldl (activate · time) s).since.get? x =
      if x ∈ l then some time else s.since.get? x := by
  induction l generalizing s with
  | nil => simp
  | cons y l ih =>
    rw [List.foldl_cons, ih, activate, OrderedMap.get?_insert]
    grind

end State

namespace Machine

variable {m : Machine}

/-- The state after a run that begins at `time`. -/
def stateAfter (m : Machine) (time : Float) (run : List Stimulus) : State :=
  run.foldl (fun s k => (m.tick s k.inputs k.globals).state) (m.start time)

@[simp] theorem stateAfter_nil (m : Machine) (time : Float) : m.stateAfter time [] = m.start time :=
  rfl

@[simp] theorem stateAfter_concat (m : Machine) (time : Float) (run : List Stimulus)
    (k : Stimulus) : m.stateAfter time (run ++ [k]) =
      (m.tick (m.stateAfter time run) k.inputs k.globals).state := by
  simp [stateAfter]

theorem start_eq (m : Machine) (time : Float) : m.start time =
    ((m.steps.filter (·.isInitial)).map (·.id)).foldl (State.activate · time) {} := by
  rw [List.foldl_map]
  rfl

theorem get?_since_fire {s : State} {rules : List Rule} {time : Float} {x : NodeId} :
    (fire s rules time).since.get? x =
      if x ∈ rules.flatMap (·.targets) then some time
      else if x ∈ rules.flatMap (·.sources) then none
      else s.since.get? x := by
  rw [fire, State.get?_since_foldl_activate, State.get?_since_foldl_deactivate]

/-- A step that is entered has the time of the tick, one that is only left has none, and all others
keep theirs. -/
theorem get?_since_tick {s : State} {i : Inputs} {globals : List Action} {x : NodeId} :
    (m.tick s i globals).state.since.get? x =
      if x ∈ (m.firing s i).flatMap (·.targets) then some i.time
      else if x ∈ (m.firing s i).flatMap (·.sources) then none
      else s.since.get? x :=
  get?_since_fire

end Machine

end SequentialChart
