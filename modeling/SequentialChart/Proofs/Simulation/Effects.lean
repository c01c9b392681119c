import Mathlib
import SequentialChart.Compile
import SequentialChart.Simulation.Tick

/-!
# What actions do

The actions of the active steps act in the order of the diagram, and the global actions after them.
All of them but resets are reported, but a variable keeps only what the last one has written: an
output that is reported need not be set when a reset follows in the same tick.

## Main definitions

* `State.isTrue` — a variable of a state is true.
* `Action.writes` — an action sets or resets a variable.
* `Machine.acting` — the actions that act in a tick, in their order.

## Main statements

* `Machine.get?_values_tick` — the last action that writes a variable decides its value.
* `Machine.mem_outputs_tick` — what a tick reports.
* `Diagram.isTrue_of_mem_outputs` — which reported outputs are true.
-/

namespace SequentialChart

/-- Whether a variable of the state is true. -/
def State.isTrue (s : State) (name : String) : Bool := (Variables.read s.values name).isTruthy

theorem State.isTrue_of_get? {s : State} {name : String} {b : Bool}
    (h : s.values.get? name = some (.bool b)) : s.isTrue name = b := by
  rw [isTrue, Variables.read, h, Option.getD_some, Value.isTruthy_bool]

namespace Action

/-- Whether the action sets or resets the variable when it acts. -/
def writes (a : Action) (name : String) : Bool :=
  a.name = name && (a.qualifier.isStored || a.qualifier = .reset)

/-- The output that an action drives. -/
def output (a : Action) : Output := ⟨a.name, .driven a.qualifier⟩

theorem writes_of_isStored {a : Action} (h : a.qualifier.isStored) : a.writes a.name := by
  simp [writes, h]

theorem name_of_writes {a : Action} {name : String} (h : a.writes name) : a.name = name := by
  simp only [writes, Bool.and_eq_true, decide_eq_true_eq] at h
  exact h.1

theorem isStored_of_writes {a : Action} {name : String} (h : a.writes name)
    (hreset : a.qualifier ≠ .reset) : a.qualifier.isStored := by
  have hwrites : a.name = name ∧ (a.qualifier.isStored ∨ a.qualifier = .reset) := by
    simpa [writes] using h
  exact hwrites.2.resolve_right hreset

end Action

/-! ### One action after the other -/

namespace Effects

variable {e : Effects} {a : Action} {as : List Action} {name : String} {o : Output}

theorem values_perform : (e.perform a).values =
    if a.qualifier.isStored || a.qualifier = .reset then
      e.values.insert a.name (.bool a.qualifier.isStored)
    else e.values := by
  cases h : a.qualifier <;> simp [perform, h, Qualifier.isStored]

theorem outputs_perform : (e.perform a).outputs =
    e.outputs ++ if a.qualifier = .reset then [] else [a.output] := by
  cases h : a.qualifier <;> simp [perform, Action.output, h]

theorem get?_perform : (e.perform a).values.get? name =
    if a.writes name then some (.bool a.qualifier.isStored) else e.values.get? name := by
  rw [values_perform, Action.writes]
  split
  · next h => simp [OrderedMap.get?_insert, h]
  · next h => simp [h]

/-- The last action that writes a variable decides its value. -/
theorem get?_foldl_perform : (as.foldl perform e).values.get? name =
    ((as.filter (·.writes name)).getLast?.map fun a => .bool a.qualifier.isStored).or
      (e.values.get? name) := by
  induction as using List.reverseRecOn with
  | nil => rfl
  | append_singleton as a ih =>
    rw [List.foldl_concat, get?_perform, ih, List.filter_append]
    by_cases h : a.writes name <;> simp [h]

theorem outputs_foldl_perform : (as.foldl perform e).outputs =
    e.outputs ++ (as.filter (·.qualifier ≠ .reset)).map Action.output := by
  induction as using List.reverseRecOn with
  | nil => simp
  | append_singleton as a ih =>
    rw [List.foldl_concat, outputs_perform, ih, List.filter_append]
    by_cases h : a.qualifier = .reset <;> simp [h]

/-- Actions that do not act change nothing. -/
theorem foldl_act {pulse : Float} {now : Moment} {l : List (Action × Float)} :
    l.foldl (fun e (a, time) => e.act pulse now a time) e =
      ((l.filter fun (a, time) => a.isAllowed now && a.isDue pulse time).map Prod.fst).foldl
        perform e := by
  induction l generalizing e with
  | nil => rfl
  | cons p l ih =>
    obtain ⟨a, time⟩ := p
    refine (List.foldl_cons ..).trans (ih.trans ?_)
    by_cases h : a.isAllowed now && a.isDue pulse time <;> simp [act, h]

theorem values_latch : (e.latch name).values = e.values := by
  unfold latch
  split <;> rfl

theorem values_foldl_latch {names : List String} : (names.foldl latch e).values = e.values := by
  induction names generalizing e with
  | nil => rfl
  | cons name names ih => rw [List.foldl_cons, ih, values_latch]

theorem mem_outputs_latch : o ∈ (e.latch name).outputs ↔
    o ∈ e.outputs ∨ o = ⟨name, .stored⟩ ∧ (Variables.read e.values name).isTruthy ∧
      ∀ o' ∈ e.outputs, o'.name ≠ name := by
  have hcond : ((Variables.read e.values name).isTruthy && !e.outputs.any (·.name = name)) ↔
      (Variables.read e.values name).isTruthy ∧ ∀ o' ∈ e.outputs, o'.name ≠ name := by
    simp
  unfold latch
  split
  · next h => simp [(hcond.1 h).1, and_iff_left (hcond.1 h).2]
  · next h => simp [mt hcond.2 h]

/-- What is true stays an output if nothing else drives it. -/
theorem mem_outputs_foldl_latch {names : List String} : o ∈ (names.foldl latch e).outputs ↔
    o ∈ e.outputs ∨ ∃ name ∈ names, o = ⟨name, .stored⟩ ∧
      (Variables.read e.values name).isTruthy ∧ ∀ o' ∈ e.outputs, o'.name ≠ name := by
  induction names generalizing e with
  | nil => simp
  | cons name names ih =>
    simp only [List.foldl_cons, ih, mem_outputs_latch, values_latch]
    grind

end Effects

/-! ### The actions of a tick -/

namespace State

theorem values_foldl_activate {s : State} {time : Float} {l : List NodeId} :
    (l.foldl (activate · time) s).values = s.values := by
  induction l generalizing s with
  | nil => rfl
  | cons x l ih => rw [List.foldl_cons, ih, values_activate]

theorem values_foldl_deactivate {s : State} {l : List NodeId} :
    (l.foldl deactivate s).values = s.values := by
  induction l generalizing s with
  | nil => rfl
  | cons x l ih => rw [List.foldl_cons, ih, values_deactivate]

end State

namespace Machine

variable {m : Machine} {s : State} {i : Inputs} {globals : List Action} {name : String}

/-- The state after the transitions of a tick have fired, in which its actions act. -/
def settled (m : Machine) (s : State) (i : Inputs) : State :=
  fire { s with previous := s.active, values := merged s i } (m.firing s i) i.time

/-- What the conditions of actions are evaluated in. -/
def actionMoment (m : Machine) (s : State) (i : Inputs) : Moment where
  current := m.withClocks (m.settled s i).values (m.settled s i).since i.time
  previous := m.withFlags s.values s.active.toList

/-- Whether an action acts in a tick if its step has been active for `time` seconds. -/
def isActing (m : Machine) (s : State) (i : Inputs) (time : Float) (a : Action) : Bool :=
  a.isAllowed (m.actionMoment s i) && a.isDue m.pulse time

/-- The actions that act in a tick: those of the active steps, step by step, then the global
ones. -/
def acting (m : Machine) (s : State) (i : Inputs) (globals : List Action) : List Action :=
  (m.steps.flatMap fun step => step.actions.filter fun a =>
    ((m.settled s i).since.get? step.id).any fun since => m.isActing s i (i.time - since) a) ++
  globals.filter (m.isActing s i 0)

/-- The last of the actions of a tick that write the variable. -/
def writer? (m : Machine) (s : State) (i : Inputs) (globals : List Action) (name : String) :
    Option Action :=
  ((m.acting s i globals).filter (·.writes name)).getLast?

theorem map_filter_schedule : ((m.schedule (m.settled s i) globals i.time).filter
    fun (a, time) => m.isActing s i time a).map Prod.fst = m.acting s i globals := by
  simp only [schedule, acting, List.filter_append, List.map_append, List.filter_flatMap,
    List.map_flatMap]
  congr 1
  · refine List.flatMap_congr fun step _ => ?_
    cases (m.settled s i).since.get? step.id with
    | none => simp
    | some since => simp [List.filter_map, Function.comp_def]
  · simp [List.filter_map, Function.comp_def]

theorem values_settled : (m.settled s i).values = merged s i := by
  rw [settled, fire, State.values_foldl_activate, State.values_foldl_deactivate]

/-- What is written and reported before the outputs that only stay. -/
def performed (m : Machine) (s : State) (i : Inputs) (globals : List Action) : Effects :=
  (m.acting s i globals).foldl Effects.perform { values := merged s i }

theorem effects_settled :
    m.effects (m.settled s i) (m.withFlags s.values s.active.toList) globals i.time =
      (m.latched globals).foldl Effects.latch (m.performed s i globals) := by
  rw [effects, Effects.foldl_act, performed, ← map_filter_schedule, ← values_settled]
  rfl

theorem values_tick :
    (m.tick s i globals).state.values = (m.performed s i globals).values := by
  have hvalues : (m.tick s i globals).state.values =
    (m.effects (m.settled s i) (m.withFlags s.values s.active.toList) globals i.time).values := rfl
  rw [hvalues, effects_settled, Effects.values_foldl_latch]

/-- The last action that writes a variable in a tick decides its value. -/
theorem get?_values_tick : (m.tick s i globals).state.values.get? name =
    ((m.writer? s i globals name).map fun a => .bool a.qualifier.isStored).or
      ((merged s i).get? name) := by
  rw [values_tick, performed, Effects.get?_foldl_perform, writer?]

theorem mem_storedNames {actions : List Action} : name ∈ storedNames actions ↔
    ∃ a ∈ actions, a.qualifier.isStored ∧ a.name = name := by
  simp [storedNames, List.mem_eraseDups, and_assoc]

/-- A tick reports the actions that act, resets apart, and the variables that it finds set though
nothing drives them. -/
theorem mem_outputs_tick {o : Output} : o ∈ (m.tick s i globals).outputs ↔
    (∃ a ∈ m.acting s i globals, a.qualifier ≠ .reset ∧ a.output = o) ∨
      ∃ name, (∃ a ∈ m.actions ++ globals, a.qualifier.isStored ∧ a.name = name) ∧
        o = ⟨name, .stored⟩ ∧ (m.tick s i globals).state.isTrue name ∧
          ∀ a ∈ m.acting s i globals, a.qualifier ≠ .reset → a.name ≠ name := by
  have houtputs : (m.tick s i globals).outputs =
    (m.effects (m.settled s i) (m.withFlags s.values s.active.toList) globals i.time).outputs := rfl
  have hperformed : ∀ o, o ∈ (m.performed s i globals).outputs ↔
      ∃ a ∈ m.acting s i globals, a.qualifier ≠ .reset ∧ a.output = o := by
    intro o
    rw [performed, Effects.outputs_foldl_perform]
    simp [and_assoc]
  rw [houtputs, effects_settled, Effects.mem_outputs_foldl_latch, ← values_tick, hperformed]
  refine or_congr_right (exists_congr fun name => ?_)
  rw [latched, mem_storedNames]
  refine and_congr_right fun _ => and_congr_right fun _ => and_congr_right fun _ => ?_
  constructor
  · intro h a ha hreset
    exact h a.output ((hperformed _).2 ⟨a, ha, hreset, rfl⟩)
  · intro h o ho
    obtain ⟨a, ha, hreset, rfl⟩ := (hperformed o).1 ho
    exact h a ha hreset

theorem mem_outputs_tick_driven {q : Qualifier} :
    ⟨name, .driven q⟩ ∈ (m.tick s i globals).outputs ↔
      ∃ a ∈ m.acting s i globals, a.qualifier ≠ .reset ∧ a.output = ⟨name, .driven q⟩ := by
  rw [mem_outputs_tick]
  simp

theorem mem_outputs_tick_stored : ⟨name, .stored⟩ ∈ (m.tick s i globals).outputs ↔
    (m.tick s i globals).state.isTrue name ∧
      (∃ a ∈ m.actions ++ globals, a.qualifier.isStored ∧ a.name = name) ∧
        ∀ q, ⟨name, .driven q⟩ ∉ (m.tick s i globals).outputs := by
  simp only [mem_outputs_tick_driven]
  rw [mem_outputs_tick]
  constructor
  · rintro (⟨a, -, -, houtput⟩ | ⟨name', hstored, houtput, htrue, hfree⟩)
    · cases houtput
    · cases houtput
      refine ⟨htrue, hstored, ?_⟩
      rintro q ⟨a, ha, hreset, houtput⟩
      exact hfree a ha hreset (congrArg Output.name houtput)
  · rintro ⟨htrue, hstored, hfree⟩
    refine .inr ⟨name, hstored, rfl, htrue, fun a ha hreset hname => ?_⟩
    exact hfree a.qualifier ⟨a, ha, hreset, by rw [Action.output, hname]⟩

theorem mem_of_writer? {a : Action} (h : m.writer? s i globals name = some a) :
    a ∈ m.acting s i globals ∧ a.writes name :=
  List.mem_filter.1 (List.mem_of_getLast? h)

theorem exists_writer? {a : Action} (ha : a ∈ m.acting s i globals) (hwrites : a.writes name) :
    ∃ b, m.writer? s i globals name = some b := by
  rw [← Option.ne_none_iff_exists', writer?, ne_eq, List.getLast?_eq_none_iff]
  exact List.ne_nil_of_mem (List.mem_filter.2 ⟨ha, hwrites⟩)

theorem isTrue_tick_of_writer? {a : Action} (h : m.writer? s i globals name = some a) :
    (m.tick s i globals).state.isTrue name = a.qualifier.isStored :=
  State.isTrue_of_get? (by rw [get?_values_tick, h]; rfl)

/-- What a tick neither sets nor resets has the value that it had, or that of an input. -/
theorem isTrue_tick_of_writer?_eq_none (h : m.writer? s i globals name = none) :
    (m.tick s i globals).state.isTrue name = (Variables.read (merged s i) name).isTruthy := by
  rw [State.isTrue, Variables.read, get?_values_tick, h]
  rfl

end Machine

/-! ### What is reported and what is true -/

namespace Diagram

variable {α : Type}

/-- An output that is reported because it was set before is true. One that is driven by an action
that sets it is true as well, unless the last action that writes it in the same tick is a reset. -/
theorem isTrue_of_mem_outputs (d : Diagram α) (pulse : Float) (s : State) (i : Inputs)
    (globals : List Action) (name : String) :
    let m := Machine.ofDiagram d pulse
    let result := m.tick s i globals
    (⟨name, .stored⟩ ∈ result.outputs → result.state.isTrue name) ∧
      ∀ q : Qualifier, q.isStored → ⟨name, .driven q⟩ ∈ result.outputs →
        (result.state.isTrue name ↔
          ∀ a ∈ m.writer? s i globals name, a.qualifier ≠ .reset) := by
  intro m result
  refine ⟨fun h => (Machine.mem_outputs_tick_stored.1 h).1, fun q hq h => ?_⟩
  -- the action that drives the output writes it, so there is a last one that does
  obtain ⟨b, hb, -, houtput⟩ := Machine.mem_outputs_tick_driven.1 h
  cases houtput
  obtain ⟨a, ha⟩ := Machine.exists_writer? hb (Action.writes_of_isStored hq)
  rw [Machine.isTrue_tick_of_writer? ha, ha]
  simp only [Option.mem_some_iff, forall_eq']
  constructor
  · intro hstored hreset
    rw [hreset] at hstored
    cases hstored
  · exact Action.isStored_of_writes (Machine.mem_of_writer? ha).2

end Diagram

/-- What is found of the diagram of a source by running it. -/
theorem Chart.exists_compile_of_any (source : String) (p : Diagram Float32 → Bool)
    (h : (Chart.compile {} source).toOption.any fun r => p r.diagram) :
    ∃ d ws, Chart.compile {} source = .ok ⟨d, ws⟩ ∧ p d := by
  match hr : Chart.compile {} source with
  | .error e => simp [hr, Except.toOption] at h
  | .ok ⟨d, ws⟩ => exact ⟨d, ws, rfl, by simpa [hr, Except.toOption] using h⟩

/-- A chart whose first step sets and resets a lamp, and resets and sets a bell. -/
def lampAndBell : String :=
  "Step 0 (Initial)\nAction LAMP (S)\nAction LAMP (R)\nAction BELL (R)\nAction BELL (S)\n" ++
    "Transition GO\nStep 1"

/-- In the first step both outputs are driven by an action that sets them, but only the bell is set.
After it, only the bell stays. -/
theorem Diagram.isTrue_of_mem_outputs_lampAndBell :
    ∃ d ws, Chart.compile {} lampAndBell = .ok ⟨d, ws⟩ ∧
      let m := Machine.ofDiagram d 0.1
      let first := m.tick (m.start 0) { time := 1 } []
      let second := m.tick first.state { time := 2, triggers := [.transition 0] } []
      (⟨"LAMP", .driven .set⟩ ∈ first.outputs ∧ ¬ first.state.isTrue "LAMP") ∧
        (⟨"BELL", .driven .set⟩ ∈ first.outputs ∧ first.state.isTrue "BELL") ∧
          ⟨"BELL", .stored⟩ ∈ second.outputs ∧ second.state.isTrue "BELL" := by
  obtain ⟨d, ws, hcompile, hruns⟩ := Chart.exists_compile_of_any lampAndBell (fun d =>
      let m := Machine.ofDiagram d 0.1
      let first := m.tick (m.start 0) { time := 1 } []
      let second := m.tick first.state { time := 2, triggers := [.transition 0] } []
      first.outputs = [⟨"LAMP", .driven .set⟩, ⟨"BELL", .driven .set⟩] ∧
        second.outputs = [⟨"BELL", .stored⟩] ∧
          (m.writer? (m.start 0) { time := 1 } [] "LAMP").map (·.qualifier) = some .reset ∧
            (m.writer? (m.start 0) { time := 1 } [] "BELL").map (·.qualifier) = some .set)
    (by decide +kernel)
  obtain ⟨hfirst, hsecond, hlamp, hbell⟩ := of_decide_eq_true hruns
  refine ⟨d, ws, hcompile, ?_⟩
  intro m first second
  have hlampOutput : ⟨"LAMP", .driven .set⟩ ∈ first.outputs := by simp [hfirst, first, m]
  have hbellOutput : ⟨"BELL", .driven .set⟩ ∈ first.outputs := by simp [hfirst, first, m]
  have hstored : ⟨"BELL", .stored⟩ ∈ second.outputs := by simp [hsecond, second, first, m]
  refine ⟨⟨hlampOutput, fun htrue => ?_⟩, ⟨hbellOutput, ?_⟩, hstored, ?_⟩
  · obtain ⟨a, ha, hreset⟩ := Option.map_eq_some_iff.1 hlamp
    exact ((isTrue_of_mem_outputs d 0.1 _ _ [] "LAMP").2 .set rfl hlampOutput).1 htrue a ha hreset
  · obtain ⟨b, hb, hset⟩ := Option.map_eq_some_iff.1 hbell
    refine ((isTrue_of_mem_outputs d 0.1 _ _ [] "BELL").2 .set rfl hbellOutput).2 fun a ha => ?_
    obtain rfl : b = a := Option.some.inj (hb.symm.trans ha)
    rw [hset]
    decide
  · exact (isTrue_of_mem_outputs d 0.1 _ _ [] "BELL").1 hstored

/-- A chart whose step sets and resets a lamp. -/
def setAndReset : String := "Step 0 (Initial)\nAction LAMP (S)\nAction LAMP (R)"

/-- The lamp is reported as being set, but it is not set. -/
theorem Diagram.exists_mem_outputs_not_isTrue :
    ∃ d ws, Chart.compile {} setAndReset = .ok ⟨d, ws⟩ ∧
      let m := Machine.ofDiagram d 0.1
      let result := m.tick (m.start 0) { time := 1 } []
      ⟨"LAMP", .driven .set⟩ ∈ result.outputs ∧ ¬ result.state.isTrue "LAMP" := by
  obtain ⟨d, ws, hcompile, hruns⟩ := Chart.exists_compile_of_any setAndReset (fun d =>
      let m := Machine.ofDiagram d 0.1
      let result := m.tick (m.start 0) { time := 1 } []
      ⟨"LAMP", .driven .set⟩ ∈ result.outputs ∧ ¬ result.state.isTrue "LAMP")
    (by decide +kernel)
  exact ⟨d, ws, hcompile, of_decide_eq_true hruns⟩

end SequentialChart
