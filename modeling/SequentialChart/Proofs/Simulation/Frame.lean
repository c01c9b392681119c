import Mathlib
import SequentialChart.Proofs.Simulation.Latches
import SequentialChart.Proofs.Simulation.Irrelevance

/-!
# What a tick leaves alone

Conditions see the variables together with the flags and the clocks of steps, but only inputs and
the actions that set or reset something change the variables that are kept. A name that has come up
once stays, in its place.

## Main statements

* `Machine.get?_tick_of_not_writes` — what no action writes has the value of an input or keeps its
  own.
* `Machine.keys_isPrefix_tick` — names keep their places.
* `Machine.mem_keys_tick_iff`, `Machine.mem_keys_stateAfter_iff` — the names after a tick and after
  a run.
* `Diagram.values_frame` — all of this for a diagram.
-/

namespace SequentialChart

/-! ### Keys -/

namespace OrderedMap

variable {κ ν : Type} [DecidableEq κ] (m : OrderedMap κ ν)

/-- A key with a new value stays in its place, and a new key comes last. -/
theorem keys_isPrefix_insert (k : κ) (v : ν) : m.keys <+: (m.insert k v).keys := by
  rw [keys_insert]
  split
  · exact List.prefix_rfl
  · exact List.prefix_append _ _

theorem keys_isPrefix_overlay (l : List (κ × ν)) : m.keys <+: (m.overlay l).keys := by
  induction l generalizing m with
  | nil => exact List.prefix_rfl
  | cons e l ih => exact (m.keys_isPrefix_insert e.1 e.2).trans (ih (m.insert e.1 e.2))

end OrderedMap

theorem Effects.keys_isPrefix_foldl_perform (e : Effects) (as : List Action) :
    e.values.keys <+: (as.foldl perform e).values.keys := by
  induction as generalizing e with
  | nil => exact List.prefix_rfl
  | cons a as ih =>
    have hfirst : e.values.keys <+: (e.perform a).values.keys := by
      rw [values_perform]
      split
      · exact e.values.keys_isPrefix_insert _ _
      · exact List.prefix_rfl
    exact hfirst.trans (ih (e.perform a))

/-! ### Machines -/

namespace Machine

variable {m : Machine} {s : State} {i : Inputs} {globals : List Action} {name : String}
  {time : Float} {run : List Stimulus}

theorem writer?_eq_none_iff : m.writer? s i globals name = none ↔
    ∀ a ∈ m.acting s i globals, ¬ a.writes name := by
  rw [writer?, List.getLast?_eq_none_iff, List.filter_eq_nil_iff]

/-- The last action that writes a variable decides its value, else an input, else the state. -/
theorem get?_tick : (m.tick s i globals).state.values.get? name =
    ((m.writer? s i globals name).map fun a => .bool a.qualifier.isStored).or
      ((i.values.get? name).or (s.values.get? name)) := by
  rw [get?_values_tick, merged, OrderedMap.get?_overlay_entries]

/-- What no action writes has the value of an input or else keeps its own. -/
theorem get?_tick_of_not_writes (h : ∀ a ∈ m.acting s i globals, ¬ a.writes name) :
    (m.tick s i globals).state.values.get? name = (i.values.get? name).or (s.values.get? name) := by
  rw [get?_tick, writer?_eq_none_iff.2 h]
  rfl

/-- Names keep their places, and new ones come after them. -/
theorem keys_isPrefix_tick : s.values.keys <+: (m.tick s i globals).state.values.keys := by
  have hmerged : s.values.keys <+: (merged s i).keys :=
    s.values.keys_isPrefix_overlay i.values.entries
  rw [values_tick]
  exact hmerged.trans (Effects.keys_isPrefix_foldl_perform { values := merged s i } _)

/-- A name comes up in a tick by an input or by an action that sets or resets it. -/
theorem mem_keys_tick_iff : name ∈ (m.tick s i globals).state.values.keys ↔
    name ∈ s.values.keys ∨ name ∈ i.values.keys ∨
      ∃ a ∈ m.acting s i globals, a.writes name := by
  have hnone : (m.tick s i globals).state.values.get? name = none ↔
      (∀ a ∈ m.acting s i globals, ¬ a.writes name) ∧ name ∉ i.values.keys ∧
        name ∉ s.values.keys := by
    rw [get?_tick, Option.or_eq_none_iff, Option.map_eq_none_iff, writer?_eq_none_iff,
      Option.or_eq_none_iff, OrderedMap.get?_eq_none_iff, OrderedMap.get?_eq_none_iff]
  rw [← not_iff_not, ← OrderedMap.get?_eq_none_iff, hnone]
  grind

/-- An action that acts in a run acts in one of its first ticks or in its last one. -/
theorem mem_actingAt_concat_iff {k : Stimulus} {j : Nat} {a : Action} :
    a ∈ m.actingAt time (run ++ [k]) j ↔ a ∈ m.actingAt time run j ∨
      j = run.length ∧ a ∈ m.acting (m.stateAfter time run) k.inputs k.globals := by
  have hover (run : List Stimulus) (h : run.length ≤ j) : m.actingAt time run j = [] := by
    rw [actingAt, List.getElem?_eq_none h]
    rfl
  rcases Nat.lt_trichotomy j run.length with hlt | rfl | hgt
  · simp [actingAt_concat_of_lt k hlt, hlt.ne]
  · simp [actingAt_concat_length, hover run le_rfl]
  · simp [hover run hgt.le, hover (run ++ [k]) (by simpa using hgt), hgt.ne']

/-- The names after a run are those that its inputs give values and its actions set or reset. -/
theorem mem_keys_stateAfter_iff : name ∈ (m.stateAfter time run).values.keys ↔
    (∃ k ∈ run, name ∈ k.inputs.values.keys) ∨
      ∃ j, ∃ a ∈ m.actingAt time run j, a.writes name := by
  induction run using List.reverseRecOn with
  | nil =>
    have hnone (j : Nat) : m.actingAt time [] j = [] := rfl
    rw [stateAfter_nil, start_eq, State.values_foldl_activate]
    simp [hnone]
  | append_singleton run k ih =>
    have hlast : (∃ j, ∃ a ∈ m.actingAt time (run ++ [k]) j, a.writes name) ↔
        (∃ j, ∃ a ∈ m.actingAt time run j, a.writes name) ∨
          ∃ a ∈ m.acting (m.stateAfter time run) k.inputs k.globals, a.writes name := by
      simp only [mem_actingAt_concat_iff, or_and_right, exists_or, and_assoc, exists_and_left,
        exists_eq_left]
    rw [stateAfter_concat, mem_keys_tick_iff, ih, hlast, or_or_or_comm]
    simp only [List.mem_append, List.mem_singleton, or_and_right, exists_or, exists_eq_left]

end Machine

/-! ### Diagrams -/

/-- A tick changes variables only by inputs and by the actions that act in it and set or reset
something: what neither of them writes keeps its value or stays without one, what only an input
writes has the value of the input, names keep their places before all new ones, and every new name,
be it that of the flag or the clock of a step, is the name of an input or of such an action. So a
run has no variables but those. -/
theorem Diagram.values_frame {α : Type} (d : Diagram α) (pulse : Float) (s : State) (i : Inputs)
    (globals : List Action) :
    let m := Machine.ofDiagram d pulse
    let after := (m.tick s i globals).state.values
    (∀ name, (∀ a ∈ m.acting s i globals, ¬ a.writes name) →
      (name ∉ i.values.keys → after.get? name = s.values.get? name) ∧
        ∀ v, i.values.get? name = some v → after.get? name = some v) ∧
    s.values.keys <+: after.keys ∧
    (∀ name ∈ after.keys, name ∉ s.values.keys →
      name ∈ i.values.keys ∨ ∃ a ∈ m.acting s i globals, a.writes name) ∧
    ∀ time run, ∀ name ∈ (m.stateAfter time run).values.keys,
      (∃ k ∈ run, name ∈ k.inputs.values.keys) ∨
        ∃ j, ∃ a ∈ m.actingAt time run j, a.writes name := by
  intro m after
  refine ⟨fun name hname => ⟨fun hinput => ?_, fun v hinput => ?_⟩, Machine.keys_isPrefix_tick,
    fun name hafter hbefore => ?_, fun time run name => Machine.mem_keys_stateAfter_iff.1⟩
  · have hnone : i.values.get? name = none := (i.values.get?_eq_none_iff name).2 hinput
    rw [Machine.get?_tick_of_not_writes hname, hnone, Option.none_or]
  · rw [Machine.get?_tick_of_not_writes hname, hinput, Option.some_or]
  · exact (Machine.mem_keys_tick_iff.1 hafter).resolve_left hbefore

/-- A chart whose step switches a lamp on when `GO` is true. -/
def lampOnGo : String := "Step 0 (Initial)\nAction LAMP (S, GO)"

/-- Of two variables one is given a new value by an input, which lets the action add a third. The
flag of the step, which is active, is none of them. -/
theorem Diagram.values_frame_lampOnGo :
    ∃ d ws, Chart.compile {} lampOnGo = .ok ⟨d, ws⟩ ∧
      let m := Machine.ofDiagram d 0.1
      let s := { m.start 0 with values := .ofList [("HOT", .bool true), ("GO", .bool false)] }
      let i : Inputs := { time := 1, values := .ofList [("GO", .bool true)] }
      let after := (m.tick s i []).state.values
      ((∀ name ∈ ["HOT", "GO", "X0"], ∀ a ∈ m.acting s i [], ¬ a.writes name) ∧
        "HOT" ∉ i.values.keys ∧ after.get? "HOT" = some (.bool true)) ∧
      (i.values.get? "GO" = some (.bool true) ∧ after.get? "GO" = some (.bool true)) ∧
      (∃ new, after.keys = ["HOT", "GO"] ++ new) ∧
      (.step 0 ∈ s.active ∧ "X0" ∉ after.keys) ∧
      (m.stateAfter 0 [⟨i, []⟩]).isTrue "LAMP" ∧
        ∃ j, ∃ a ∈ m.actingAt 0 [⟨i, []⟩] j, a.writes "LAMP" := by
  obtain ⟨d, ws, hcompile, hruns⟩ := Chart.exists_compile_of_any lampOnGo (fun d =>
      let m := Machine.ofDiagram d 0.1
      let s := { m.start 0 with values := .ofList [("HOT", .bool true), ("GO", .bool false)] }
      let i : Inputs := { time := 1, values := .ofList [("GO", .bool true)] }
      (m.acting s i []).map (·.name) = ["LAMP"] ∧ NodeId.step 0 ∈ s.active ∧
        (m.stateAfter 0 [⟨i, []⟩]).isTrue "LAMP" ∧
          "LAMP" ∈ (m.stateAfter 0 [⟨i, []⟩]).values.keys)
    (by decide +kernel)
  obtain ⟨hacting, hactive, hlamp, hkey⟩ := of_decide_eq_true hruns
  refine ⟨d, ws, hcompile, ?_⟩
  intro m s i after
  have hfree : ∀ name ∈ ["HOT", "GO", "X0"], ∀ a ∈ m.acting s i [], ¬ a.writes name := by
    intro name hname a ha hwrites
    have hmem : a.name ∈ ["LAMP"] := hacting ▸ List.mem_map_of_mem ha
    rw [Action.name_of_writes hwrites, List.mem_singleton] at hmem
    subst hmem
    exact absurd hname (by decide)
  obtain ⟨hvalues, ⟨new, hnew⟩, hnames, hrun⟩ := values_frame d 0.1 s i []
  have hkeys : s.values.keys = ["HOT", "GO"] := rfl
  have hhot : "HOT" ∉ i.values.keys := by decide
  have hgo : i.values.get? "GO" = some (.bool true) := rfl
  refine ⟨⟨hfree, hhot, ?_⟩, ⟨hgo, ?_⟩, ⟨new, hnew.symm⟩, ⟨hactive, fun hflag => ?_⟩, hlamp, ?_⟩
  · exact (hvalues "HOT" (hfree _ (by decide))).1 hhot
  · exact (hvalues "GO" (hfree _ (by decide))).2 _ hgo
  · rcases hnames "X0" hflag (by rw [hkeys]; decide) with hinput | ⟨a, ha, hwrites⟩
    · exact absurd hinput (by decide)
    · exact hfree "X0" (by decide) a ha hwrites
  · rcases hrun 0 _ "LAMP" hkey with ⟨k, hk, hname⟩ | hwrites
    · rw [List.mem_singleton.1 hk] at hname
      exact absurd hname (by decide)
    · exact hwrites

end SequentialChart
