import Mathlib
import SequentialChart.Proofs.Expression.Variables
import SequentialChart.Proofs.Simulation.Clocks
import SequentialChart.Proofs.Simulation.Latches

/-!
# Edges

An edge of the flag of a step compares two successive sets of active steps: a condition the steps
active when its tick begins with those active when the tick before began, an action the steps active
after its tick with those active before it. An edge of any other variable compares its value before
the tick with the one that the inputs leave.

## Main definitions

* `Machine.IsActiveAt`, `Machine.WasActiveAt` — a step is active when a tick of a run begins, or was
  when the tick before began.
* `Machine.ConditionHoldsAt`, `Machine.GuardHoldsAt` — a text holds as the condition of a transition
  or of an action in a tick of a run.

## Main statements

* `Machine.previous_tick`, `Machine.mem_previous_stateAfter` — what a tick and what a run records of
  the steps before.
* `Machine.showsEdges_condition`, `Machine.showsEdges_guard` — the edges of a flag in one tick.
* `Diagram.edges_stateAfter` — the edges of flags and of other variables along a run.
-/

namespace SequentialChart

/-! ### Names of flags -/

/-- The flag of a step is a variable. -/
theorem isVariable_flagName (n : Nat) : Expression.IsVariable (flagName n) := by
  have hchars : (flagName n).toList = 'X' :: (Nat.repr n).toList := by
    simp [flagName]
  refine Expression.isVariable_of_isName ⟨⟨_, _, hchars, by decide⟩, ?_, ?_⟩
  · rw [hchars]
    refine List.forall_mem_cons.2 ⟨by decide, fun c hc => ?_⟩
    rw [Nat.toList_repr] at hc
    have hdigit : c.isDigit := Nat.isDigit_of_mem_toDigits (by decide) (by decide) hc
    simp [Token.isNameChar, Text.isWordChar, Char.isAlphanum, hdigit]
  · -- no keyword begins with an `X`
    intro k hk hupper
    have hkeys : ∀ k ∈ Token.keywords, k.toList.head? ≠ some 'X' := by decide
    refine hkeys k hk ?_
    rw [← hupper, hchars]
    rfl

/-! ### Flags and values -/

namespace Machine

variable {m : Machine} {values : Variables} {nodes : List NodeId} {n : Nat}

/-- The flags of the steps among the nodes, and nothing else, are laid over the variables. -/
theorem mem_flags_iff {name : String} {v : Value} :
    (name, v) ∈ (nodes.filterMap m.number?).map (fun n => (flagName n, Value.bool true)) ↔
      ∃ n, m.number? (.step n) = some n ∧ .step n ∈ nodes ∧ name = flagName n ∧
        v = .bool true := by
  simp only [List.mem_map, List.mem_filterMap, Prod.mk.injEq]
  constructor
  · rintro ⟨n, ⟨id, hid, hn⟩, rfl, rfl⟩
    obtain rfl := eq_step_of_number? hn
    exact ⟨n, hn, hid, rfl, rfl⟩
  · rintro ⟨n, hn, hid, rfl, rfl⟩
    exact ⟨n, ⟨.step n, hid, hn⟩, rfl, rfl⟩

theorem get?_withFlags_of_ne {name : String} (h : ∀ n, .step n ∈ nodes → name ≠ flagName n) :
    (m.withFlags values nodes).get? name = values.get? name := by
  refine OrderedMap.get?_overlay_of_not_mem _ _ fun hmem => ?_
  obtain ⟨⟨_, v⟩, hentry, rfl⟩ := List.mem_map.1 hmem
  obtain ⟨n, -, hn, hname, -⟩ := mem_flags_iff.1 hentry
  exact h n hn hname

/-- Among variables without a flag of their own, the flag of a step is true exactly if the step is
among the nodes. -/
theorem isTruthy_withFlags_iff (hn : m.number? (.step n) = some n)
    (hvalues : values.get? (flagName n) = none) :
    ((m.withFlags values nodes).read (flagName n)).isTruthy ↔ .step n ∈ nodes := by
  by_cases hmem : .step n ∈ nodes
  · have hget : (m.withFlags values nodes).get? (flagName n) = some (.bool true) := by
      refine OrderedMap.get?_overlay_of_mem _ (mem_flags_iff.2 ⟨n, hn, hmem, rfl, rfl⟩) ?_
      intro w hw
      obtain ⟨-, -, -, -, rfl⟩ := mem_flags_iff.1 hw
      rfl
    simp [Variables.read, hget, hmem]
  · have hget : (m.withFlags values nodes).get? (flagName n) = none := by
      rw [get?_withFlags_of_ne, hvalues]
      rintro n' hn' hname
      exact hmem (flagName_injective hname ▸ hn')
    simp [Variables.read, hget, hmem]

/-- So it is with the flags that go together with the clocks. -/
theorem isTruthy_withClocks_iff {since : OrderedMap NodeId Float} {now : Float}
    (hn : m.number? (.step n) = some n) (hvalues : values.get? (flagName n) = none) :
    ((m.withClocks values since now).read (flagName n)).isTruthy ↔
      (since.get? (.step n)).isSome := by
  cases ht : since.get? (.step n) with
  | some t => simp [Variables.read, get?_withClocks_flagName hn ht]
  | none =>
    have hget : (m.withClocks values since now).get? (flagName n) = none := by
      rw [get?_withClocks_of_ne, hvalues]
      intro n' hn'
      refine ⟨fun hname => ?_, flagName_ne_clockName n n'⟩
      rw [← flagName_injective hname, ht] at hn'
      cases hn'
    simp [Variables.read, hget]

end Machine

/-! ### The steps before -/

namespace State

theorem previous_foldl_activate {s : State} {time : Float} {l : List NodeId} :
    (l.foldl (activate · time) s).previous = s.previous := by
  induction l generalizing s with
  | nil => rfl
  | cons x l ih => rw [List.foldl_cons, ih, activate]

theorem previous_foldl_deactivate {s : State} {l : List NodeId} :
    (l.foldl deactivate s).previous = s.previous := by
  induction l generalizing s with
  | nil => rfl
  | cons x l ih => rw [List.foldl_cons, ih, deactivate]

end State

namespace Machine

variable {m : Machine} {time : Float} {run : List Stimulus} {j n : Nat} {x : NodeId}

/-- A tick records the steps that were active before it. -/
theorem previous_tick {s : State} {i : Inputs} {globals : List Action} :
    (m.tick s i globals).state.previous = s.active := by
  have hfire : (m.tick s i globals).state.previous = (m.settled s i).previous := rfl
  rw [hfire, settled, fire, State.previous_foldl_activate, State.previous_foldl_deactivate]

/-- The step is active when the tick in place `j` of a run begins. -/
def IsActiveAt (m : Machine) (time : Float) (run : List Stimulus) (j : Nat) (x : NodeId) : Prop :=
  x ∈ (m.stateAfter time (run.take j)).active

/-- The step was active when the tick before the one in place `j` began; no step was so at the
start. -/
def WasActiveAt (m : Machine) (time : Float) (run : List Stimulus) : Nat → NodeId → Prop
  | 0, _ => False
  | j + 1, x => m.IsActiveAt time run j x

theorem stateAfter_take_succ {k : Stimulus} (hk : run[j]? = some k) :
    m.stateAfter time (run.take (j + 1)) =
      (m.tick (m.stateAfter time (run.take j)) k.inputs k.globals).state := by
  rw [List.take_add_one, hk, Option.toList_some, stateAfter_concat]

theorem mem_previous_stateAfter (hj : j ≤ run.length) :
    x ∈ (m.stateAfter time (run.take j)).previous ↔ m.WasActiveAt time run j x := by
  cases j with
  | zero =>
    rw [List.take_zero, stateAfter_nil, start_eq, State.previous_foldl_activate]
    exact iff_of_false List.not_mem_nil id
  | succ j =>
    have hk : run[j]? = some run[j] := List.getElem?_eq_getElem hj
    rw [stateAfter_take_succ hk, previous_tick]
    rfl

/-! ### One tick -/

/-- In the conditions of transitions, an edge of a flag compares the steps active before the tick
with those recorded by the tick before. -/
theorem showsEdges_condition {s : State} {i : Inputs} (hclocked : s.IsClocked)
    (hn : m.number? (.step n) = some n) (hvalues : s.values.get? (flagName n) = none)
    (hinputs : flagName n ∉ i.values.keys) :
    Expression.ShowsEdges (Expression.textHolds · (m.conditionMoment s i)) (flagName n)
      (.step n ∈ s.previous) (.step n ∈ s.active) := by
  have hmerged : (merged s i).get? (flagName n) = none := by rw [get?_merged hinputs, hvalues]
  refine Expression.showsEdges (isVariable_flagName n) (isTruthy_withFlags_iff hn hvalues) ?_
  rw [hclocked.mem_active_iff, ← Option.isSome_iff_exists]
  exact isTruthy_withClocks_iff hn hmerged

/-- In the conditions of actions, it compares the steps active after the tick with those active
before it. -/
theorem showsEdges_guard {s : State} {i : Inputs} {globals : List Action} (hclocked : s.IsClocked)
    (hn : m.number? (.step n) = some n) (hvalues : s.values.get? (flagName n) = none)
    (hinputs : flagName n ∉ i.values.keys) :
    Expression.ShowsEdges (Expression.textHolds · (m.actionMoment s i)) (flagName n)
      (.step n ∈ s.active) (.step n ∈ (m.tick s i globals).state.active) := by
  have hsettled : (m.settled s i).values.get? (flagName n) = none := by
    rw [values_settled, get?_merged hinputs, hvalues]
  refine Expression.showsEdges (isVariable_flagName n) (isTruthy_withFlags_iff hn hvalues) ?_
  rw [(hclocked.tick m i globals).mem_active_iff, ← Option.isSome_iff_exists]
  exact isTruthy_withClocks_iff hn hsettled

/-- An edge of a variable that is neither a flag nor a clock compares its value before the tick with
the one that the inputs leave, in the conditions of transitions and of actions alike. -/
theorem showsEdges_of_ne {s : State} {i : Inputs} {name : String}
    (hname : Expression.IsVariable name) (hne : ∀ n, name ≠ flagName n ∧ name ≠ clockName n) :
    Expression.ShowsEdges (Expression.textHolds · (m.conditionMoment s i)) name
        (s.isTrue name) ((merged s i).read name).isTruthy ∧
      Expression.ShowsEdges (Expression.textHolds · (m.actionMoment s i)) name
        (s.isTrue name) ((merged s i).read name).isTruthy := by
  have hflags : ∀ nodes, (m.withFlags s.values nodes).read name = s.values.read name := by
    intro nodes
    rw [Variables.read, get?_withFlags_of_ne fun n _ => (hne n).1, Variables.read]
  have hclocks : ∀ values since, (m.withClocks values since i.time).read name =
      Variables.read values name := by
    intro values since
    rw [Variables.read, get?_withClocks_of_ne fun n _ => hne n, Variables.read]
  constructor
  · refine Expression.showsEdges hname ?_ ?_
    · rw [conditionMoment, hflags, State.isTrue]
    · rw [conditionMoment, hclocks]
  · refine Expression.showsEdges hname ?_ ?_
    · rw [actionMoment, hflags, State.isTrue]
    · rw [actionMoment, hclocks, values_settled]

/-! ### A run -/

/-- The text holds as the condition of a transition in the tick in place `j` of a run. -/
def ConditionHoldsAt (m : Machine) (time : Float) (run : List Stimulus) (j : Nat) (text : String) :
    Prop :=
  ∃ k ∈ run[j]?, Expression.textHolds text
    (m.conditionMoment (m.stateAfter time (run.take j)) k.inputs)

/-- The text holds as the condition of an action in the tick in place `j` of a run. -/
def GuardHoldsAt (m : Machine) (time : Float) (run : List Stimulus) (j : Nat) (text : String) :
    Prop :=
  ∃ k ∈ run[j]?, Expression.textHolds text
    (m.actionMoment (m.stateAfter time (run.take j)) k.inputs)

theorem conditionHoldsAt_eq {k : Stimulus} (hk : run[j]? = some k) :
    m.ConditionHoldsAt time run j = fun text => Expression.textHolds text
      (m.conditionMoment (m.stateAfter time (run.take j)) k.inputs) = true := by
  funext text
  simp [ConditionHoldsAt, hk]

theorem guardHoldsAt_eq {k : Stimulus} (hk : run[j]? = some k) :
    m.GuardHoldsAt time run j = fun text => Expression.textHolds text
      (m.actionMoment (m.stateAfter time (run.take j)) k.inputs) = true := by
  funext text
  simp [GuardHoldsAt, hk]

theorem mem_actingAt_take {i : Nat} {a : Action} (h : a ∈ m.actingAt time (run.take j) i) :
    a ∈ m.actingAt time run i := by
  rcases Nat.lt_or_ge i j with hlt | hge
  · rwa [actingAt, List.getElem?_take_of_lt hlt, List.take_take, min_eq_left hlt.le] at h
  · have hover : (run.take j)[i]? = none :=
      List.getElem?_eq_none ((List.length_take_le j run).trans hge)
    rw [actingAt, hover] at h
    cases h

/-- A variable that neither inputs nor actions write has no value at any time. -/
theorem get?_stateAfter_take_eq_none {name : String}
    (hinputs : ∀ k ∈ run, name ∉ k.inputs.values.keys)
    (hactions : ∀ j, ∀ a ∈ m.actingAt time run j, ¬ a.writes name) :
    (m.stateAfter time (run.take j)).values.get? name = none := by
  have hwriter : m.lastWriter? time (run.take j) name = none := by
    rw [lastWriter?, List.getLast?_eq_none_iff, List.filter_eq_nil_iff]
    intro a ha
    obtain ⟨i, -, ha⟩ := List.mem_flatMap.1 ha
    exact hactions i a (mem_actingAt_take ha)
  rw [get?_stateAfter fun k hk => hinputs k (List.mem_of_mem_take hk), hwriter, Option.map_none]

/-- What the edges of a flag compare in the tick in place `j` of a run. -/
theorem showsEdges_flag (hn : m.number? (.step n) = some n)
    (hinputs : ∀ k ∈ run, flagName n ∉ k.inputs.values.keys)
    (hactions : ∀ j, ∀ a ∈ m.actingAt time run j, ¬ a.writes (flagName n)) (hj : j < run.length) :
    Expression.ShowsEdges (m.ConditionHoldsAt time run j) (flagName n)
        (m.WasActiveAt time run j (.step n)) (m.IsActiveAt time run j (.step n)) ∧
      Expression.ShowsEdges (m.GuardHoldsAt time run j) (flagName n)
        (m.IsActiveAt time run j (.step n)) (m.IsActiveAt time run (j + 1) (.step n)) := by
  have hk : run[j]? = some run[j] := List.getElem?_eq_getElem hj
  have hclocked := m.isClocked_stateAfter time (run.take j)
  have hvalues := get?_stateAfter_take_eq_none (j := j) hinputs hactions
  have hnot := hinputs run[j] (List.getElem_mem hj)
  constructor
  · rw [conditionHoldsAt_eq hk, ← mem_previous_stateAfter hj.le]
    exact showsEdges_condition hclocked hn hvalues hnot
  · rw [guardHoldsAt_eq hk, IsActiveAt, IsActiveAt, stateAfter_take_succ hk]
    exact showsEdges_guard hclocked hn hvalues hnot

theorem lt_length_of_conditionHoldsAt {text : String} (h : m.ConditionHoldsAt time run j text) :
    j < run.length := by
  obtain ⟨k, hk, -⟩ := h
  exact (List.getElem?_eq_some_iff.1 hk).1

theorem lt_length_of_guardHoldsAt {text : String} (h : m.GuardHoldsAt time run j text) :
    j < run.length := by
  obtain ⟨k, hk, -⟩ := h
  exact (List.getElem?_eq_some_iff.1 hk).1

/-- While a step stays active, the rising edge of its flag holds in one tick at most: in conditions
in the first one that begins with the step, in actions in the one before. -/
theorem subsingleton_rising (hn : m.number? (.step n) = some n)
    (hinputs : ∀ k ∈ run, flagName n ∉ k.inputs.values.keys)
    (hactions : ∀ j, ∀ a ∈ m.actingAt time run j, ¬ a.writes (flagName n)) {first last : Nat}
    (hstays : ∀ j, first ≤ j → j ≤ last → m.IsActiveAt time run j (.step n)) :
    {j | first ≤ j ∧ j ≤ last ∧
        m.ConditionHoldsAt time run j ("RE " ++ flagName n)}.Subsingleton ∧
      {j | first ≤ j + 1 ∧ j ≤ last ∧
        m.GuardHoldsAt time run j ("RE " ++ flagName n)}.Subsingleton := by
  constructor
  · refine Set.subsingleton_of_subset_singleton (a := first) ?_
    rintro j ⟨hfirst, hlast, hrises⟩
    obtain ⟨hedges, -⟩ := showsEdges_flag hn hinputs hactions (lt_length_of_conditionHoldsAt hrises)
    have hwas := (hedges.1.1 hrises).2
    rcases hfirst.eq_or_lt with rfl | hlt
    · rfl
    · -- the tick before began with the step
      obtain ⟨i, rfl⟩ : ∃ i, j = i + 1 := ⟨j - 1, by omega⟩
      exact absurd (hstays i (by omega) (by omega)) hwas
  · refine Set.subsingleton_of_subset_singleton (a := first - 1) ?_
    rintro j ⟨hfirst, hlast, hrises⟩
    obtain ⟨-, hedges⟩ := showsEdges_flag hn hinputs hactions (lt_length_of_guardHoldsAt hrises)
    have hnot := (hedges.1.1 hrises).2
    have hbefore : ¬ first ≤ j := fun hle => hnot (hstays j hle hlast)
    rw [Set.mem_singleton_iff]
    omega

end Machine

/-! ### Diagrams -/

namespace Diagram

variable {α : Type}

/-- Along every run, as long as nothing writes the flag of a step: in the conditions of transitions
its edges compare the steps active when the tick begins with those active when the one before began,
in the conditions of actions the steps active after the tick with those active before it, and the
rising edge holds at most once while the step stays active. The edges of any variable that is
neither a flag nor a clock compare its value before the tick with the one that the inputs leave. -/
theorem edges_stateAfter (d : Diagram α) (pulse time : Float) (run : List Stimulus) :
    let m := Machine.ofDiagram d pulse
    (∀ n, (∃ step ∈ d.steps, step.number = n) →
      (∀ k ∈ run, flagName n ∉ k.inputs.values.keys) →
      (∀ j, ∀ a ∈ m.actingAt time run j, ¬ a.writes (flagName n)) →
        (∀ j < run.length,
          Expression.ShowsEdges (m.ConditionHoldsAt time run j) (flagName n)
              (m.WasActiveAt time run j (.step n)) (m.IsActiveAt time run j (.step n)) ∧
            Expression.ShowsEdges (m.GuardHoldsAt time run j) (flagName n)
              (m.IsActiveAt time run j (.step n)) (m.IsActiveAt time run (j + 1) (.step n))) ∧
        ∀ first last, (∀ j, first ≤ j → j ≤ last → m.IsActiveAt time run j (.step n)) →
          {j | first ≤ j ∧ j ≤ last ∧
              m.ConditionHoldsAt time run j ("RE " ++ flagName n)}.Subsingleton ∧
            {j | first ≤ j + 1 ∧ j ≤ last ∧
              m.GuardHoldsAt time run j ("RE " ++ flagName n)}.Subsingleton) ∧
    ∀ name, Expression.IsVariable name → (∀ n, name ≠ flagName n ∧ name ≠ clockName n) →
      ∀ j, ∀ k ∈ run[j]?,
        let s := m.stateAfter time (run.take j)
        let after := ((Machine.merged s k.inputs).read name).isTruthy
        Expression.ShowsEdges (m.ConditionHoldsAt time run j) name (s.isTrue name) after ∧
          Expression.ShowsEdges (m.GuardHoldsAt time run j) name (s.isTrue name) after := by
  intro m
  constructor
  · rintro n ⟨step, hstep, rfl⟩ hinputs hactions
    have hn : m.number? (.step step.number) = some step.number :=
      number?_ofDiagram ⟨step, hstep, rfl⟩
    exact ⟨fun j hj => Machine.showsEdges_flag hn hinputs hactions hj,
      fun first last hstays => Machine.subsingleton_rising hn hinputs hactions hstays⟩
  · intro name hname hne j k hk
    rw [Machine.conditionHoldsAt_eq hk, Machine.guardHoldsAt_eq hk]
    exact Machine.showsEdges_of_ne hname hne

end Diagram

/-- A chart that goes on when `A` becomes true. -/
def goOnce : String := "Step 0 (Initial)\nTransition RE A\nStep 1\nTransition B\nStep 2"

/-- The second step is entered in the first of three ticks and left in the last one: its flag rises
for the actions of the first tick and for the conditions of the second one, and falls for the
actions of the last one. The variable `A` rises in the first tick only, though it stays true. -/
theorem Diagram.edges_stateAfter_goOnce :
    ∃ d ws, Chart.compile {} goOnce = .ok ⟨d, ws⟩ ∧
      let m := Machine.ofDiagram d 0.1
      let run : List Stimulus :=
        [⟨{ time := 1, values := .ofList [("A", .bool true)] }, []⟩, ⟨{ time := 2 }, []⟩,
          ⟨{ time := 3, triggers := [.transition 1] }, []⟩]
      ((∃ step ∈ d.steps, step.number = 1) ∧ (∀ k ∈ run, flagName 1 ∉ k.inputs.values.keys) ∧
        (∀ j, ∀ a ∈ m.actingAt 0 run j, ¬ a.writes (flagName 1)) ∧
          ∀ j, 1 ≤ j → j ≤ 2 → m.IsActiveAt 0 run j (.step 1)) ∧
      (m.GuardHoldsAt 0 run 0 "RE X1" ∧ m.GuardHoldsAt 0 run 2 "FE X1") ∧
      (m.ConditionHoldsAt 0 run 1 "RE X1" ∧ ¬ m.ConditionHoldsAt 0 run 2 "RE X1") ∧
      {j | 1 ≤ j ∧ j ≤ 2 ∧ m.ConditionHoldsAt 0 run j "RE X1"}.Subsingleton ∧
      (Expression.IsVariable "A" ∧ ∀ n, "A" ≠ flagName n ∧ "A" ≠ clockName n) ∧
      m.ConditionHoldsAt 0 run 0 "RE A" ∧ ¬ m.ConditionHoldsAt 0 run 1 "RE A" := by
  obtain ⟨d, ws, hcompile, hruns⟩ := Chart.exists_compile_of_any goOnce (fun d =>
      let m := Machine.ofDiagram d 0.1
      let run : List Stimulus :=
        [⟨{ time := 1, values := .ofList [("A", .bool true)] }, []⟩, ⟨{ time := 2 }, []⟩,
          ⟨{ time := 3, triggers := [.transition 1] }, []⟩]
      (∃ step ∈ d.steps, step.number = 1) ∧
        ((List.range 3).all fun j => (m.actingAt 0 run j).isEmpty) ∧
          (NodeId.step 1 ∉ (m.stateAfter 0 (run.take 0)).active ∧
            ([1, 2].all fun j => NodeId.step 1 ∈ (m.stateAfter 0 (run.take j)).active) ∧
              NodeId.step 1 ∉ (m.stateAfter 0 (run.take 3)).active) ∧
            ¬ (m.stateAfter 0 (run.take 0)).isTrue "A" ∧ (m.stateAfter 0 (run.take 1)).isTrue "A")
    (by decide +kernel)
  obtain ⟨hstep, hacting, ⟨hbefore, hstays, hafter⟩, hfalse, htrue⟩ := of_decide_eq_true hruns
  refine ⟨d, ws, hcompile, ?_⟩
  intro m run
  have hinputs : ∀ k ∈ run, flagName 1 ∉ k.inputs.values.keys := by decide
  have hactions : ∀ j, ∀ a ∈ m.actingAt 0 run j, ¬ a.writes (flagName 1) := by
    intro j a ha
    rcases Nat.lt_or_ge j 3 with hlt | hge
    · have hnone := List.all_eq_true.1 hacting j (List.mem_range.2 hlt)
      rw [List.isEmpty_iff.1 hnone] at ha
      cases ha
    · have hover : run[j]? = none := List.getElem?_eq_none hge
      rw [Machine.actingAt, hover] at ha
      cases ha
  have hactive : ∀ j, 1 ≤ j → j ≤ 2 → m.IsActiveAt 0 run j (.step 1) := by
    intro j hone htwo
    have hmem : j ∈ [1, 2] := by
      rw [List.mem_pair]
      omega
    have hdecide := List.all_eq_true.1 hstays j hmem
    rwa [decide_eq_true_eq] at hdecide
  have hname : Expression.IsVariable "A" := rfl
  have hne : ∀ n, "A" ≠ flagName n ∧ "A" ≠ clockName n := by
    intro n
    constructor
    · intro h
      simpa [flagName] using congrArg (·.toList.head?) h
    · intro h
      simpa [clockName, flagName] using congrArg (·.toList.head?) h
  obtain ⟨hflags, hvariables⟩ := edges_stateAfter d 0.1 0 run
  obtain ⟨hticks, honce⟩ := hflags 1 hstep hinputs hactions
  obtain ⟨hfirst, -⟩ := hvariables "A" hname hne 0 _ rfl
  obtain ⟨hsecond, -⟩ := hvariables "A" hname hne 1 _ rfl
  refine ⟨⟨hstep, hinputs, hactions, hactive⟩, ⟨?_, ?_⟩, ⟨?_, ?_⟩, (honce 1 2 hactive).1,
    ⟨hname, hne⟩, ?_, ?_⟩
  · exact (hticks 0 (by decide)).2.1.2 ⟨hactive 1 le_rfl (by omega), hbefore⟩
  · exact (hticks 2 (by decide)).2.2.2 ⟨hactive 2 (by omega) le_rfl, hafter⟩
  · exact (hticks 1 (by decide)).1.1.2 ⟨hactive 1 le_rfl (by omega), hbefore⟩
  · exact fun hrises => ((hticks 2 (by decide)).1.1.1 hrises).2 (hactive 1 le_rfl (by omega))
  · have hafter : ((Machine.merged (m.start 0) run[0].inputs).read "A").isTruthy := by
      show (Variables.read (OrderedMap.insert _ "A" (.bool true)) "A").isTruthy
      rw [Variables.read_insert, if_pos rfl, Value.isTruthy_bool]
    exact hfirst.1.2 ⟨hafter, hfalse⟩
  · exact fun hrises => (hsecond.1.1 hrises).2 htrue

end SequentialChart
