import Mathlib
import SequentialChart.Proofs.Simulation.Effects
import SequentialChart.Proofs.Simulation.Runs

/-!
# What stays set

A variable that actions have set stays set until an action resets it, however long ago the steps of
both have become inactive. As long as no input interferes, it shows which action of the run wrote it
last.

## Main definitions

* `Machine.actingAt` — the actions that act in a tick of a run.
* `Machine.lastWriter?` — the last of them, over a whole run, that writes a variable.

## Main statements

* `Machine.isTrue_tick`, `Machine.isTrue_stateAfter` — what a tick and what a run leaves set.
* `Machine.get?_stateAfter` — the last action of a run that writes a variable decides its value.
* `Diagram.isTrue_stateAfter_iff` — when a variable is set, how long it stays so, and when that is
  reported.
-/

namespace SequentialChart

namespace Machine

variable {m : Machine} {s : State} {i : Inputs} {globals : List Action} {time : Float}
  {run : List Stimulus} {k : Stimulus} {name : String}

/-- The actions that act in the tick in place `n` of a run. -/
def actingAt (m : Machine) (time : Float) (run : List Stimulus) (n : Nat) : List Action :=
  run[n]?.elim [] fun k => m.acting (m.stateAfter time (run.take n)) k.inputs k.globals

/-- The last of the actions of a run that write the variable: of those of its last tick that has
any, the last one. -/
def lastWriter? (m : Machine) (time : Float) (run : List Stimulus) (name : String) :
    Option Action :=
  (((List.range run.length).flatMap (m.actingAt time run)).filter (·.writes name)).getLast?

/-! ### One tick -/

theorem get?_merged (h : name ∉ i.values.keys) :
    (merged s i).get? name = s.values.get? name :=
  OrderedMap.get?_overlay_of_not_mem _ _ h

/-- A tick in which no action resets a variable leaves it set. -/
theorem isTrue_tick (hs : s.isTrue name) (hname : name ∉ i.values.keys)
    (hreset : ∀ a ∈ m.acting s i globals, a.qualifier = .reset → a.name ≠ name) :
    (m.tick s i globals).state.isTrue name := by
  cases hwriter : m.writer? s i globals name with
  | none =>
    rwa [isTrue_tick_of_writer?_eq_none hwriter, Variables.read, get?_merged hname]
  | some a =>
    obtain ⟨ha, hwrites⟩ := mem_of_writer? hwriter
    rw [isTrue_tick_of_writer? hwriter]
    exact Action.isStored_of_writes hwrites fun h => hreset a ha h (Action.name_of_writes hwrites)

/-! ### A run -/

theorem actingAt_concat_of_lt {n : Nat} (k : Stimulus) (h : n < run.length) :
    m.actingAt time (run ++ [k]) n = m.actingAt time run n := by
  rw [actingAt, actingAt, List.getElem?_append_left h, List.take_append_of_le_length h.le]

theorem actingAt_concat_length : m.actingAt time (run ++ [k]) run.length =
    m.acting (m.stateAfter time run) k.inputs k.globals := by
  rw [actingAt, List.getElem?_concat_length, List.take_left]
  rfl

theorem lastWriter?_concat : m.lastWriter? time (run ++ [k]) name =
    (m.writer? (m.stateAfter time run) k.inputs k.globals name).or
      (m.lastWriter? time run name) := by
  have hbefore : (List.range run.length).flatMap (m.actingAt time (run ++ [k])) =
      (List.range run.length).flatMap (m.actingAt time run) :=
    List.flatMap_congr fun n hn => actingAt_concat_of_lt k (List.mem_range.1 hn)
  rw [lastWriter?, List.length_append, List.length_singleton, List.range_succ,
    List.flatMap_append, hbefore, List.flatMap_singleton, actingAt_concat_length,
    List.filter_append, List.getLast?_append]
  rfl

/-- A run in which no action resets a variable any more leaves it set. -/
theorem isTrue_stateAfter (hname : ∀ k ∈ run, name ∉ k.inputs.values.keys) {n : Nat}
    (hn : n ≤ run.length) (hs : (m.stateAfter time (run.take n)).isTrue name)
    (hreset : ∀ j, n ≤ j → ∀ a ∈ m.actingAt time run j, a.qualifier = .reset → a.name ≠ name) :
    (m.stateAfter time run).isTrue name := by
  induction run using List.reverseRecOn with
  | nil => rwa [List.take_nil] at hs
  | append_singleton run k ih =>
    rcases Nat.lt_or_ge run.length n with hlt | hle
    · rwa [List.take_of_length_le (by simpa using hlt)] at hs
    · rw [List.take_append_of_le_length hle] at hs
      have hbefore : (m.stateAfter time run).isTrue name := by
        refine ih (fun k hk => hname k (List.mem_append_left _ hk)) hle hs fun j hj a ha => ?_
        rcases Nat.lt_or_ge j run.length with hlt | hge
        · exact hreset j hj a (by rwa [actingAt_concat_of_lt k hlt])
        · simp [actingAt, hge] at ha
      rw [stateAfter_concat]
      refine isTrue_tick hbefore (hname k (by simp)) fun a ha => ?_
      exact hreset run.length hle a (by rwa [actingAt_concat_length])

/-- The last action of a run that writes a variable decides its value. -/
theorem get?_stateAfter (hname : ∀ k ∈ run, name ∉ k.inputs.values.keys) :
    (m.stateAfter time run).values.get? name =
      (m.lastWriter? time run name).map fun a => .bool a.qualifier.isStored := by
  induction run using List.reverseRecOn with
  | nil =>
    rw [stateAfter_nil, start_eq, State.values_foldl_activate]
    rfl
  | append_singleton run k ih =>
    rw [stateAfter_concat, get?_values_tick, get?_merged (hname k (by simp)),
      ih fun k hk => hname k (List.mem_append_left _ hk), lastWriter?_concat, Option.map_or]

end Machine

/-! ### Diagrams -/

namespace Diagram

variable {α : Type}

/-- Whatever else happens in a run, a variable that no input gives a value is set after it exactly
if the last action that wrote it has set it; it stays set from any tick on as long as no action
resets it; and the next tick reports it as being stored exactly if it is set then, some action of
the diagram or of the global ones is there to set it, and nothing drives it. -/
theorem isTrue_stateAfter_iff (d : Diagram α) (pulse time : Float) (run : List Stimulus)
    (name : String) (hname : ∀ k ∈ run, name ∉ k.inputs.values.keys) :
    let m := Machine.ofDiagram d pulse
    ((m.stateAfter time run).isTrue name ↔
        ∃ a ∈ m.lastWriter? time run name, a.qualifier.isStored) ∧
      (∀ n ≤ run.length, (m.stateAfter time (run.take n)).isTrue name →
        (∀ j, n ≤ j → ∀ a ∈ m.actingAt time run j, a.qualifier = .reset → a.name ≠ name) →
          (m.stateAfter time run).isTrue name) ∧
      ∀ k : Stimulus, ⟨name, .stored⟩ ∈
          (m.tick (m.stateAfter time run) k.inputs k.globals).outputs ↔
        (m.stateAfter time (run ++ [k])).isTrue name ∧
          (∃ a ∈ d.steps.flatMap (·.actions) ++ k.globals,
            a.qualifier.isStored ∧ a.name = name) ∧
          ∀ q, ⟨name, .driven q⟩ ∉
            (m.tick (m.stateAfter time run) k.inputs k.globals).outputs := by
  intro m
  refine ⟨?_, fun n hn hs hreset => Machine.isTrue_stateAfter hname hn hs hreset, fun k => ?_⟩
  · have hvalue : (m.stateAfter time run).values.get? name = _ := Machine.get?_stateAfter hname
    cases hwriter : m.lastWriter? time run name with
    | none =>
      rw [hwriter] at hvalue
      simp [State.isTrue, Variables.read, hvalue]
    | some a =>
      rw [hwriter] at hvalue
      simp [State.isTrue_of_get? hvalue]
  · have hactions : m.actions = d.steps.flatMap (·.actions) := by
      simp [m, Machine.actions, Machine.ofDiagram, List.flatMap_map]
    rw [Machine.mem_outputs_tick_stored, Machine.stateAfter_concat, hactions]

end Diagram

/-- A chart with a lamp that is set in one step and reset in a later one. -/
def lampOnAndOff : String :=
  "Step 0 (Initial)\nTransition ON\nStep 1\nAction LAMP (S)\nTransition LEAVE\nStep 2\n" ++
    "Transition OFF\nStep 3\nAction LAMP (R)"

/-- The lamp is still on after the step that has set it, and off when it has been reset. -/
theorem Diagram.isTrue_stateAfter_lampOnAndOff :
    ∃ d ws, Chart.compile {} lampOnAndOff = .ok ⟨d, ws⟩ ∧
      let m := Machine.ofDiagram d 0.1
      let on : Stimulus := ⟨{ time := 1, triggers := [.transition 0] }, []⟩
      let leave : Stimulus := ⟨{ time := 2, triggers := [.transition 1] }, []⟩
      let off : Stimulus := ⟨{ time := 3, triggers := [.transition 2] }, []⟩
      (∀ k ∈ [on, leave, off], "LAMP" ∉ k.inputs.values.keys) ∧
        .step 1 ∉ (m.stateAfter 0 [on, leave]).active ∧
          (m.stateAfter 0 [on, leave]).isTrue "LAMP" ∧
            ⟨"LAMP", .stored⟩ ∈ (m.tick (m.stateAfter 0 [on]) leave.inputs leave.globals).outputs ∧
              ¬ (m.stateAfter 0 [on, leave, off]).isTrue "LAMP" := by
  obtain ⟨d, ws, hcompile, hruns⟩ := Chart.exists_compile_of_any lampOnAndOff (fun d =>
      let m := Machine.ofDiagram d 0.1
      let on : Stimulus := ⟨{ time := 1, triggers := [.transition 0] }, []⟩
      let leave : Stimulus := ⟨{ time := 2, triggers := [.transition 1] }, []⟩
      let off : Stimulus := ⟨{ time := 3, triggers := [.transition 2] }, []⟩
      .step 1 ∉ (m.stateAfter 0 [on, leave]).active ∧
        (m.lastWriter? 0 [on] "LAMP").map (·.qualifier) = some .set ∧
          (m.actingAt 0 [on, leave] 1).map (·.qualifier) = [] ∧
            (m.lastWriter? 0 [on, leave, off] "LAMP").map (·.qualifier) = some .reset ∧
              (m.tick (m.stateAfter 0 [on]) leave.inputs leave.globals).outputs =
                [⟨"LAMP", .stored⟩])
    (by decide +kernel)
  obtain ⟨hleft, hset, hnone, hreset, houtputs⟩ := of_decide_eq_true hruns
  refine ⟨d, ws, hcompile, ?_⟩
  intro m on leave off
  have hname : ∀ k ∈ [on, leave, off], "LAMP" ∉ k.inputs.values.keys := by
    simp [on, leave, off]
  have hon : (m.stateAfter 0 [on]).isTrue "LAMP" := by
    obtain ⟨a, ha, hqualifier⟩ := Option.map_eq_some_iff.1 hset
    refine (isTrue_stateAfter_iff d 0.1 0 [on] "LAMP" fun k hk => hname k ?_).1.2 ⟨a, ha, ?_⟩
    · grind
    · rw [hqualifier]
      rfl
  have hstays : (m.stateAfter 0 [on, leave]).isTrue "LAMP" := by
    refine (isTrue_stateAfter_iff d 0.1 0 [on, leave] "LAMP" fun k hk => hname k ?_).2.1 1
      (by decide) hon fun j hj a ha => ?_
    · grind
    · -- in the second tick no action acts, and there is no third one
      obtain rfl | hj : j = 1 ∨ 2 ≤ j := by omega
      · rw [List.map_eq_nil_iff.1 hnone] at ha
        cases ha
      · have hover : [on, leave][j]? = none := List.getElem?_eq_none hj
        rw [Machine.actingAt, hover] at ha
        cases ha
  refine ⟨hname, hleft, hstays, ?_, fun hoff => ?_⟩
  · rw [houtputs]
    exact List.mem_singleton_self _
  · obtain ⟨a, ha, hstored⟩ := (isTrue_stateAfter_iff d 0.1 0 [on, leave, off] "LAMP" hname).1.1 hoff
    obtain ⟨b, hb, hqualifier⟩ := Option.map_eq_some_iff.1 hreset
    obtain rfl : a = b := Option.some.inj (ha.symm.trans hb)
    rw [hqualifier] at hstored
    cases hstored

end SequentialChart
