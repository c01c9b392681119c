import Mathlib
import SequentialChart.Proofs.Simulation.Frame

/-!
# Actions are decided together

All actions of a tick are decided on one view of the variables, so that the order of the global
actions has no say in which of them act. It matters only for a variable that one of them sets and
another resets.

## Main definitions

* `Action.AreConsistent` — no variable is both set and reset.

## Main statements

* `Machine.perm_acting` — the actions that act, in another order.
* `Machine.outputs_tick` — what a tick reports, in its order.
* `Machine.get?_tick_congr` — what consistent actions leave in the variables.
* `Diagram.perm_outputs_of_perm_globals` — a tick with its global actions in another order.
-/

namespace SequentialChart

/-- No variable is set by one of the actions and reset by another. -/
def Action.AreConsistent (actions : List Action) : Prop :=
  ∀ a ∈ actions, ∀ b ∈ actions, a.qualifier = .reset → b.qualifier.isStored → a.name ≠ b.name

instance : DecidablePred Action.AreConsistent := fun actions =>
  inferInstanceAs (Decidable (∀ a ∈ actions, ∀ b ∈ actions, _))

/-- Whether an output is driven by an action. -/
def Output.isDriven (o : Output) : Bool := o.kind ≠ .stored

/-- The list without repetitions is the list of the members of a set. -/
theorem OrderedSet.toList_ofList {α : Type} [DecidableEq α] (l : List α) :
    (ofList l).toList = l.eraseDups := by
  have hfilter : l.filter (· ∉ (∅ : OrderedSet α)) = l :=
    List.filter_eq_self.2 fun a _ => decide_eq_true (List.not_mem_nil (a := a))
  rw [ofList, toList_insertAll, hfilter]
  rfl

/-- Outputs that stay are reported once each, behind what is driven. -/
theorem Effects.outputs_foldl_latch {e : Effects} {names : List String} (h : names.Nodup) :
    (names.foldl latch e).outputs = e.outputs ++
      (names.filter fun name => (Variables.read e.values name).isTruthy &&
        !e.outputs.any (·.name = name)).map (⟨·, .stored⟩) := by
  induction names generalizing e with
  | nil => simp
  | cons name names ih =>
    obtain ⟨hname, hnames⟩ := List.nodup_cons.1 h
    rw [List.foldl_cons, ih hnames, values_latch, List.filter_cons]
    -- an output that is added has another name than those that are still to be looked at
    have hrest : ∀ other ∈ names,
        (e.latch name).outputs.any (·.name = other) = e.outputs.any (·.name = other) := by
      intro other hother
      have hne : name ≠ other := fun heq => hname (heq ▸ hother)
      unfold latch
      split <;> simp [hne]
    have hfilter : (names.filter fun other => (Variables.read e.values other).isTruthy &&
          !(e.latch name).outputs.any (·.name = other)) =
        names.filter fun other => (Variables.read e.values other).isTruthy &&
          !e.outputs.any (·.name = other) :=
      List.filter_congr fun other hother => by rw [hrest other hother]
    rw [hfilter, latch]
    split <;> simp

namespace Machine

variable {m : Machine} {s : State} {i : Inputs} {globals globals' : List Action} {name : String}

theorem perm_acting (h : globals.Perm globals') :
    (m.acting s i globals).Perm (m.acting s i globals') := (h.filter _).append_left _

theorem mem_of_mem_acting {a : Action} (h : a ∈ m.acting s i globals) :
    a ∈ m.actions ++ globals := by
  rw [acting, List.mem_append, List.mem_flatMap] at h
  rw [List.mem_append, actions, List.mem_flatMap]
  refine h.imp ?_ fun h => (List.mem_filter.1 h).1
  rintro ⟨step, hstep, ha⟩
  exact ⟨step, hstep, (List.mem_filter.1 ha).1⟩

theorem nodup_latched : (m.latched globals).Nodup := by
  rw [latched, storedNames, ← OrderedSet.toList_ofList]
  exact OrderedSet.nodup _

theorem perm_latched (h : globals.Perm globals') :
    (m.latched globals).Perm (m.latched globals') := by
  refine (List.perm_ext_iff_of_nodup nodup_latched nodup_latched).2 fun name => ?_
  simp only [latched, mem_storedNames, List.mem_append, h.mem_iff]

/-- Whether a tick leaves the variable set though none of its actions drives it. -/
def stays (m : Machine) (s : State) (i : Inputs) (globals : List Action) (name : String) : Bool :=
  (m.tick s i globals).state.isTrue name &&
    !((m.acting s i globals).filter (·.qualifier ≠ .reset)).any (·.name = name)

/-- A tick reports the actions that act, resets apart, and behind them what stays set. -/
theorem outputs_tick : (m.tick s i globals).outputs =
    ((m.acting s i globals).filter (·.qualifier ≠ .reset)).map Action.output ++
      ((m.latched globals).filter (m.stays s i globals)).map (⟨·, .stored⟩) := by
  have houtputs : (m.tick s i globals).outputs =
    (m.effects (m.settled s i) (m.withFlags s.values s.active.toList) globals i.time).outputs := rfl
  have hperformed : (m.performed s i globals).outputs =
      ((m.acting s i globals).filter (·.qualifier ≠ .reset)).map Action.output := by
    rw [performed, Effects.outputs_foldl_perform, List.nil_append]
  rw [houtputs, effects_settled, Effects.outputs_foldl_latch nodup_latched, ← values_tick,
    hperformed]
  simp only [List.any_map]
  rfl

theorem driven_tick : (m.tick s i globals).outputs.filter (·.isDriven) =
    ((m.acting s i globals).filter (·.qualifier ≠ .reset)).map Action.output := by
  rw [outputs_tick, List.filter_append]
  simp [List.filter_map, Function.comp_def, Action.output, Output.isDriven]

/-- Consistent actions that write a variable write the same. -/
theorem get?_tick_of_writes (h : Action.AreConsistent (m.actions ++ globals)) {a : Action}
    (ha : a ∈ m.acting s i globals) (hwrites : a.writes name) :
    (m.tick s i globals).state.values.get? name = some (.bool a.qualifier.isStored) := by
  obtain ⟨b, hb⟩ := exists_writer? ha hwrites
  obtain ⟨hacting, hlast⟩ := mem_of_writer? hb
  have hname : a.name = b.name :=
    (Action.name_of_writes hwrites).trans (Action.name_of_writes hlast).symm
  have hsame : b.qualifier.isStored = a.qualifier.isStored := by
    by_cases hareset : a.qualifier = .reset
    · have hnot : ¬ b.qualifier.isStored := fun hstored =>
        h a (mem_of_mem_acting ha) b (mem_of_mem_acting hacting) hareset hstored hname
      rw [hareset, Bool.eq_false_of_not_eq_true hnot]
      rfl
    · have hstored := Action.isStored_of_writes hwrites hareset
      have hnot : b.qualifier ≠ .reset := fun hbreset =>
        h b (mem_of_mem_acting hacting) a (mem_of_mem_acting ha) hbreset hstored hname.symm
      rw [hstored, Action.isStored_of_writes hlast hnot]
  rw [get?_tick, hb, Option.map_some, Option.some_or, hsame]

/-- The order of consistent actions does not matter for the variables. -/
theorem get?_tick_congr (h : globals.Perm globals')
    (hconsistent : Action.AreConsistent (m.actions ++ globals)) (name : String) :
    (m.tick s i globals).state.values.get? name =
      (m.tick s i globals').state.values.get? name := by
  have hconsistent' : Action.AreConsistent (m.actions ++ globals') := by
    simpa only [Action.AreConsistent, List.mem_append, h.mem_iff] using hconsistent
  by_cases hwritten : ∃ a ∈ m.acting s i globals, a.writes name
  · obtain ⟨a, ha, hwrites⟩ := hwritten
    rw [get?_tick_of_writes hconsistent ha hwrites,
      get?_tick_of_writes hconsistent' ((perm_acting h).mem_iff.1 ha) hwrites]
  · have hnot : ∀ a ∈ m.acting s i globals, ¬ a.writes name := by simpa using hwritten
    rw [get?_tick_of_not_writes hnot,
      get?_tick_of_not_writes fun a ha => hnot a ((perm_acting h).mem_iff.2 ha)]

theorem perm_driven_tick (h : globals.Perm globals') :
    ((m.tick s i globals).outputs.filter (·.isDriven)).Perm
      ((m.tick s i globals').outputs.filter (·.isDriven)) := by
  rw [driven_tick, driven_tick]
  exact ((perm_acting h).filter _).map _

theorem perm_outputs_tick (h : globals.Perm globals')
    (hvalues : ∀ name, (m.tick s i globals).state.values.get? name =
      (m.tick s i globals').state.values.get? name) :
    (m.tick s i globals).outputs.Perm (m.tick s i globals').outputs := by
  have hdriving := (perm_acting (m := m) (s := s) (i := i) h).filter (·.qualifier ≠ .reset)
  have hstays : m.stays s i globals = m.stays s i globals' := by
    funext name
    rw [stays, stays, State.isTrue, State.isTrue, Variables.read, Variables.read, hvalues,
      hdriving.any_eq]
  rw [outputs_tick, outputs_tick, hstays]
  exact (hdriving.map _).append (((perm_latched h).filter _).map _)

end Machine

/-! ### Diagrams -/

/-- Two ticks that differ only in the order of the global actions fire the same transitions and
report the same driven outputs, each as often. If no variable is both set and reset, they also leave
the same variables and report the same outputs on the whole. -/
theorem Diagram.perm_outputs_of_perm_globals {α : Type} (d : Diagram α) (pulse : Float) (s : State)
    (i : Inputs) (globals globals' : List Action) (h : globals.Perm globals') :
    let m := Machine.ofDiagram d pulse
    let result := m.tick s i globals
    let result' := m.tick s i globals'
    result.fired = result'.fired ∧
      (result.outputs.filter (·.isDriven)).Perm (result'.outputs.filter (·.isDriven)) ∧
      (Action.AreConsistent (d.steps.flatMap (·.actions) ++ globals) →
        (∀ name, result.state.values.get? name = result'.state.values.get? name) ∧
          result.outputs.Perm result'.outputs) := by
  intro m result result'
  refine ⟨rfl, Machine.perm_driven_tick h, fun hconsistent => ?_⟩
  have hactions : m.actions = d.steps.flatMap (·.actions) := by
    simp [m, Machine.actions, Machine.ofDiagram, List.flatMap_map]
  have hvalues := Machine.get?_tick_congr (m := m) (s := s) (i := i) h (hactions ▸ hconsistent)
  exact ⟨hvalues, Machine.perm_outputs_tick h hvalues⟩

/-- A chart whose step closes a valve and makes a noise while the pump runs. -/
def valveAndNoise : String := "Step 0 (Initial)\nAction VALVE (R)\nAction NOISE (N, PUMP)"

/-- Two actions that start the pump, a horn in between that waits for it, and a light for the
dark. -/
def pumpHornAndLight : List Action :=
  [{ name := "PUMP", qualifier := .set }, { name := "HORN", condition := some "PUMP" },
    { name := "PUMP", qualifier := .setLimited, duration := some 5 },
    { name := "LIGHT", qualifier := .set, condition := some "DARK" }]

/-- The pump is started by either action, in either order, and the light, which was on, stays on.
Neither the horn nor the noise can be heard in the same tick, since they look at the pump as it was
before. -/
theorem Diagram.perm_outputs_valveAndNoise :
    ∃ d ws, Chart.compile {} valveAndNoise = .ok ⟨d, ws⟩ ∧
      let m := Machine.ofDiagram d 0.1
      let s := { m.start 0 with values := .ofList [("LIGHT", .bool true)] }
      let result := m.tick s { time := 1 } pumpHornAndLight
      let result' := m.tick s { time := 1 } pumpHornAndLight.reverse
      (pumpHornAndLight.Perm pumpHornAndLight.reverse ∧
        Action.AreConsistent (d.steps.flatMap (·.actions) ++ pumpHornAndLight)) ∧
      result.outputs =
        [⟨"PUMP", .driven .set⟩, ⟨"PUMP", .driven .setLimited⟩, ⟨"LIGHT", .stored⟩] ∧
      result.outputs.Perm result'.outputs ∧
      (result.outputs.filter (·.isDriven)).Perm (result'.outputs.filter (·.isDriven)) ∧
      result.fired = result'.fired ∧
      ∀ name, result.state.values.get? name = result'.state.values.get? name := by
  obtain ⟨d, ws, hcompile, hruns⟩ := Chart.exists_compile_of_any valveAndNoise (fun d =>
      let m := Machine.ofDiagram d 0.1
      let s := { m.start 0 with values := .ofList [("LIGHT", .bool true)] }
      Action.AreConsistent (d.steps.flatMap (·.actions) ++ pumpHornAndLight) ∧
        (m.tick s { time := 1 } pumpHornAndLight).outputs =
          [⟨"PUMP", .driven .set⟩, ⟨"PUMP", .driven .setLimited⟩, ⟨"LIGHT", .stored⟩])
    (by decide +kernel)
  obtain ⟨hconsistent, houtputs⟩ := of_decide_eq_true hruns
  refine ⟨d, ws, hcompile, ?_⟩
  intro m s result result'
  have hperm : pumpHornAndLight.Perm pumpHornAndLight.reverse := (List.reverse_perm _).symm
  obtain ⟨hfired, hdriven, hall⟩ :=
    perm_outputs_of_perm_globals d 0.1 s { time := 1 } _ _ hperm
  obtain ⟨hvalues, houtputs'⟩ := hall hconsistent
  exact ⟨⟨hperm, hconsistent⟩, houtputs, houtputs', hdriven, hfired, hvalues⟩

end SequentialChart
