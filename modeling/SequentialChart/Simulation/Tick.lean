import SequentialChart.Simulation.Machine

/-!
# Ticks

A tick takes a chart from one state to the next.

1. The inputs replace the values of variables.
2. All transitions fire that are enabled and whose condition holds or that are triggered. They are
   decided together, on the steps active before the tick.
3. The steps that they leave become inactive, then the steps that they enter become active.
4. The actions of the active steps act, then the global actions, all of them on one view of the
   variables.

An edge compares a variable with its value before the tick. For the flag of a step, a condition
looks one tick further back: it compares the steps active when this tick begins with those active
when the one before began, and an action compares the steps after firing with those before.

## Main definitions

* `Action.isDue`, `Effects.act` — when an action is active, and what it does then.
* `Machine.firing` — the transitions that fire.
* `Machine.tick` — the tick.
-/

namespace SequentialChart

/-! ### Actions -/

/-- Whether the qualifier makes an action active that belongs to a step active for `time`
seconds. -/
def Action.isDue (a : Action) (pulse time : Float) : Bool :=
  let duration := a.duration.getD 0
  match a.qualifier with
  | .nonStored | .set | .reset => true
  | .limited | .setLimited => time < duration
  | .delayed | .setDelayed | .delayedSet => time ≥ duration
  | .pulse => time < pulse

def Action.isAllowed (a : Action) (now : Moment) : Bool :=
  match a.guard? with
  | some condition => Expression.textHolds condition now
  | none => true

/-- The variables and the outputs while actions act, the latest output last. -/
structure Effects where
  values : Variables
  outputs : List Output := []

namespace Effects

/-- What an action does when it is active. A reset is not reported. -/
def perform (e : Effects) (a : Action) : Effects :=
  match a.qualifier with
  | .reset => { e with values := e.values.insert a.name (.bool false) }
  | q =>
    { values := if q.isStored then e.values.insert a.name (.bool true) else e.values
      outputs := e.outputs ++ [⟨a.name, .driven q⟩] }

def act (pulse : Float) (now : Moment) (e : Effects) (a : Action) (time : Float) : Effects :=
  if a.isAllowed now && a.isDue pulse time then e.perform a else e

/-- Reports an output that was set earlier and that nothing drives now. -/
def latch (e : Effects) (name : String) : Effects :=
  if (Variables.read e.values name).isTruthy && !e.outputs.any (·.name = name) then
    { e with outputs := e.outputs ++ [⟨name, .stored⟩] }
  else e

end Effects

namespace Machine

/-- The actions of the active steps, each with the time for which its step has been active, and the
global actions, which count as just begun. -/
def schedule (m : Machine) (s : State) (globals : List Action) (now : Float) :
    List (Action × Float) :=
  (m.steps.flatMap fun step =>
    match s.since.get? step.id with
    | some since => step.actions.map (·, now - since)
    | none => []) ++ globals.map (·, 0)

/-- The names whose outputs stay when nothing drives them. -/
def latched (m : Machine) (globals : List Action) : List String :=
  storedNames (m.actions ++ globals)

/-- The effects of all actions in a state; `previous` are the variables before the tick. -/
def effects (m : Machine) (s : State) (previous : Variables) (globals : List Action) (now : Float) :
    Effects :=
  let moment : Moment := ⟨m.withClocks s.values s.since now, previous⟩
  let acted := (m.schedule s globals now).foldl (fun e (a, time) => e.act m.pulse moment a time)
    { values := s.values }
  (m.latched globals).foldl Effects.latch acted

/-! ### Firing -/

def merged (s : State) (i : Inputs) : Variables := s.values.overlay i.values.entries

/-- What the conditions of transitions are evaluated in. -/
def conditionMoment (m : Machine) (s : State) (i : Inputs) : Moment where
  current := m.withClocks (merged s i) s.since i.time
  previous := m.withFlags s.values s.previous.toList

def fires (s : State) (i : Inputs) (moment : Moment) (r : Rule) : Bool :=
  r.isEnabled s && (i.triggers.contains r.id || r.condition.any (·.holds moment))

def firing (m : Machine) (s : State) (i : Inputs) : List Rule :=
  let moment := m.conditionMoment s i
  m.rules.filter (fires s i moment)

def fire (s : State) (rules : List Rule) (time : Float) : State :=
  let left := (rules.flatMap (·.sources)).foldl State.deactivate s
  (rules.flatMap (·.targets)).foldl (State.activate · time) left

def tick (m : Machine) (s : State) (i : Inputs) (globals : List Action) : TickResult :=
  let rules := m.firing s i
  let after := fire { s with previous := s.active, values := merged s i } rules i.time
  let previous := m.withFlags s.values s.active.toList
  let effects := m.effects after previous globals i.time
  { state := { after with values := effects.values }
    fired := rules.map (·.id)
    outputs := effects.outputs }

end Machine

end SequentialChart
