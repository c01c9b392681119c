import SequentialChart.Diagram.Record
import SequentialChart.Simulation.Tick

/-!
# Scenarios

A scenario is a list of ticks with their inputs, written down in advance. A tick may set its own
time; otherwise it comes one interval after the tick before. It may be repeated: then its triggers
and its own time belong to the first repetition only.

## Main definitions

* `ScenarioTick`, `Scenario`, `Scenario.ofData`.
* `ScenarioError`, `ScenarioError.message`.
* `TickReport`, `ScenarioRun`, `Scenario.run`.
-/

namespace SequentialChart

/-- The inputs of a tick and how often it is repeated. -/
structure ScenarioTick where
  name : Option String := none
  time : Option Float := none
  values : Variables := ∅
  triggers : List String := []
  count : Nat := 1

structure Scenario where
  name : Option String := none
  /-- The seconds between ticks that do not set their own time. -/
  interval : Float := 1
  startTime : Float := 0
  globals : List Action := []
  ticks : List ScenarioTick := []

inductive ScenarioError where
  | unreadable
  | invalidInterval (interval : Float)
  | zeroCount (tick : Nat)
  | unknownTransition (tick : Nat) (name : String)
  | goesBack (tick : Nat) (time before : Float)

def ScenarioError.message : ScenarioError → String
  | unreadable => "invalid scenario file"
  | invalidInterval interval =>
    "interval must be a positive number of seconds, got " ++ plainText interval
  | zeroCount tick => "tick " ++ Nat.repr tick ++ " has a repeat count of zero"
  | unknownTransition tick name =>
    "tick " ++ Nat.repr tick ++ " triggers unknown transition `" ++ name ++ "`"
  | goesBack tick time before =>
    "tick " ++ Nat.repr tick ++ " at " ++ plainText time ++
      "s is earlier than the previous tick at " ++
      plainText before ++ "s"

/-! ### Reading -/

def Value.ofData? (d : Data) : Option Value :=
  match d.toBool? with
  | some b => some (.bool b)
  | none => d.toFloat?.map .number

def Variables.ofData? : Data → Option Variables
  | .record entries =>
    (entries.mapM fun (e : String × Data) => (Value.ofData? e.2).map (e.1, ·)).map OrderedMap.ofList
  | _ => none

def Data.listOf? {α : Type} (read : Data → Option α) (d : Data) : Option (List α) :=
  d.toList?.bind (·.mapM read)

namespace ScenarioTick

def entryNames : List String := ["name", "time", "variables", "triggers", "repeat"]

/-- The tick that a record describes. Everything may be missing. -/
def ofData? (format : DataFormat) (d : Data) : Option ScenarioTick := do
  let d ← d.asRecord? format entryNames
  let name ← d.entryOr "name" none (Data.optional Data.toText?)
  let time ← d.entryOr "time" none (Data.optional Data.toFloat?)
  let values ← d.entryOr "variables" ∅ Variables.ofData?
  let triggers ← d.entryOr "triggers" [] (Data.listOf? Data.toText?)
  let count ← d.entryOr "repeat" 1 Data.toCount?
  return { name, time, values, triggers, count }

end ScenarioTick

namespace Scenario

def entryNames : List String := ["name", "interval", "start_time", "action", "tick"]

def ofData? (format : DataFormat) (d : Data) : Option Scenario := do
  let d ← d.asRecord? format entryNames
  let name ← d.entryOr "name" none (Data.optional Data.toText?)
  let interval ← d.entryOr "interval" 1 Data.toFloat?
  let startTime ← d.entryOr "start_time" 0 Data.toFloat?
  let globals ← d.entryOr "action" [] (Data.listOf? (Action.ofData? format))
  let ticks ← d.entryOr "tick" [] (Data.listOf? (ScenarioTick.ofData? format))
  return { name, interval, startTime, globals, ticks }

/-- Whether the interval is a positive number of seconds. -/
def hasInterval (s : Scenario) : Bool := s.interval.isFinite && s.interval > 0

/-- The scenario, if its interval is positive and every tick happens at least once. -/
def validated (s : Scenario) : Except ScenarioError Scenario :=
  if !s.hasInterval then .error (.invalidInterval s.interval)
  else match s.ticks.findIdx? (·.count = 0) with
    | some tick => .error (.zeroCount tick)
    | none => .ok s

/-- The scenario that the contents of a file describe; there are no contents if the file could not
be read as data. -/
def ofData (format : DataFormat) (d : Option Data) : Except ScenarioError Scenario :=
  match d.bind (ofData? format) with
  | none => .error .unreadable
  | some s => s.validated

theorem validated_eq_ok_iff {s t : Scenario} :
    s.validated = .ok t ↔ s.hasInterval = true ∧ (∀ tick ∈ s.ticks, tick.count ≠ 0) ∧ s = t := by
  unfold validated
  cases hi : s.hasInterval
  · simp
  · cases hf : s.ticks.findIdx? (·.count = 0) with
    | some n =>
      have hn : ¬ ∀ tick ∈ s.ticks, tick.count ≠ 0 := fun h => by
        have := List.findIdx?_eq_none_iff.2 (fun x hx => decide_eq_false (h x hx))
        rw [hf] at this
        cases this
      simp [hn]
    | none =>
      have := List.findIdx?_eq_none_iff.1 hf
      simp only [decide_eq_false_iff_not] at this
      simp only [Bool.not_true, Bool.false_eq_true, if_false, Except.ok.injEq, true_and]
      exact ⟨fun h => ⟨this, h⟩, fun h => h.2⟩

end Scenario

/-! ### Running -/

structure TickReport where
  /-- The place of the tick in the run, repetitions counted. -/
  index : Nat
  name : Option String
  time : Float
  fired : List NodeId
  active : List NodeId
  outputs : List Output

structure ScenarioRun where
  reports : List TickReport
  state : State

structure Progress where
  time : Float
  state : State
  index : Nat

namespace Scenario

def step (s : Scenario) (m : Machine) (tick : ScenarioTick) (triggers : List NodeId) (time : Float)
    (p : Progress) : TickReport × Progress :=
  let result := m.tick p.state { time, values := tick.values, triggers } s.globals
  ({ index := p.index, name := tick.name, time, fired := result.fired
     active := result.state.active.toList, outputs := result.outputs },
   { time, state := result.state, index := p.index + 1 })

/-- `count` ticks, each one interval after the one before. -/
def stepRepeatedly (s : Scenario) (m : Machine) (tick : ScenarioTick) :
    Nat → Progress → List TickReport × Progress
  | 0, p => ([], p)
  | count + 1, p =>
    let (report, p) := s.step m tick [] (p.time + s.interval) p
    let (reports, p) := stepRepeatedly s m tick count p
    (report :: reports, p)

def triggers (m : Machine) (index : Nat) (tick : ScenarioTick) :
    Except ScenarioError (List NodeId) :=
  tick.triggers.mapM fun name =>
    let id := NodeId.ofText name
    if m.rules.any (·.id = id) then .ok id else .error (.unknownTransition index name)

/-- The time of the first repetition of a tick, which must not lie before the tick before. -/
def firstTime (s : Scenario) (index : Nat) (tick : ScenarioTick) (before : Float) :
    Except ScenarioError Float :=
  match tick.time with
  | some time => if time < before then .error (.goesBack index time before) else .ok time
  | none => .ok (before + s.interval)

def runTick (s : Scenario) (m : Machine) (index : Nat) (tick : ScenarioTick) (p : Progress) :
    Except ScenarioError (List TickReport × Progress) := do
  let triggers ← triggers m index tick
  match tick.count with
  | 0 => return ([], p)
  | count + 1 =>
    let time ← s.firstTime index tick p.time
    let (report, p) := s.step m tick triggers time p
    let (reports, p) := s.stepRepeatedly m tick count p
    return (report :: reports, p)

def runTicks (s : Scenario) (m : Machine) :
    Nat → List ScenarioTick → Progress → Except ScenarioError (List TickReport × Progress)
  | _, [], p => .ok ([], p)
  | index, tick :: ticks, p => do
    let (reports, p) ← s.runTick m index tick p
    let (rest, p) ← s.runTicks m (index + 1) ticks p
    return (reports ++ rest, p)

/-- Runs all ticks, beginning with the initial steps. -/
def run (s : Scenario) (m : Machine) : Except ScenarioError ScenarioRun := do
  let begin : Progress := { time := s.startTime, state := m.start s.startTime, index := 0 }
  let (reports, p) ← s.runTicks m 0 s.ticks begin
  return { reports, state := p.state }

end Scenario

end SequentialChart
