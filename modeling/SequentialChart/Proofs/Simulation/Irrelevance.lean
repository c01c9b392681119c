import Mathlib
import SequentialChart.Proofs.Expression.Variables
import SequentialChart.Proofs.Simulation.Effects
import SequentialChart.Proofs.Simulation.Firing
import SequentialChart.Proofs.Simulation.Runs

/-!
# Variables without influence

A variable that no condition mentions and no stored action writes has no part in a run. Two runs
that are given the same apart from that variable go the same way: tick by tick the same transitions
fire, the same outputs are reported, and the states differ in nothing but the variable.

## Main definitions

* `State.AgreeOff`, `Inputs.AgreeOff`, `Stimulus.AgreeOff`, `Effects.AgreeOff` — the same apart from
  one variable.
* `Action.Ignores`, `Diagram.Ignores` — the variable has no influence.

## Main statements

* `Machine.agreeOff_settled`, `Machine.acting_eq` — what the two halves of a tick preserve.
* `Diagram.agreeOff_tick` — what a tick preserves.
* `Diagram.agreeOff_stateAfter` — what a run preserves.
-/

namespace SequentialChart

/-! ### Variables -/

/-- The entries of a map laid over another one hide its values. -/
theorem OrderedMap.get?_overlay_entries {κ ν : Type} [DecidableEq κ] (m n : OrderedMap κ ν)
    (k : κ) : (m.overlay n.entries).get? k = (n.get? k).or (m.get? k) := by
  cases h : n.get? k with
  | none =>
    rw [get?_overlay_of_not_mem _ _ ((get?_eq_none_iff n k).1 h)]
    rfl
  | some v =>
    have hunique : ∀ w, (k, w) ∈ n.entries → w = v := fun w hw =>
      Option.some.inj (((mem_entries_iff n k w).1 hw).symm.trans h)
    rw [get?_overlay_of_mem _ ((mem_entries_iff n k v).2 h) hunique]
    rfl

namespace Variables.AgreeOff

variable {name : String} {a b a' b' : Variables}

theorem refl (name : String) (a : Variables) : AgreeOff name a a := fun _ _ => rfl

theorem insert (h : AgreeOff name a b) (other : String) (v : Value) :
    AgreeOff name (OrderedMap.insert a other v) (OrderedMap.insert b other v) := by
  intro k hk
  rw [OrderedMap.get?_insert, OrderedMap.get?_insert, h k hk]

theorem insert_self (a : Variables) (v : Value) :
    AgreeOff name (OrderedMap.insert a name v) a := by
  intro k hk
  rw [OrderedMap.get?_insert, if_neg (Ne.symm hk)]

theorem overlay (h : AgreeOff name a b) (l : List (String × Value)) :
    AgreeOff name (OrderedMap.overlay a l) (OrderedMap.overlay b l) := by
  induction l generalizing a b with
  | nil => exact h
  | cons e l ih => exact ih (h.insert e.1 e.2)

theorem overlay_entries (h : AgreeOff name a b) (h' : AgreeOff name a' b') :
    AgreeOff name (OrderedMap.overlay a a'.entries) (OrderedMap.overlay b b'.entries) := by
  intro k hk
  rw [OrderedMap.get?_overlay_entries, OrderedMap.get?_overlay_entries, h k hk, h' k hk]

end Variables.AgreeOff

/-! ### States, inputs and effects -/

/-- The states are the same, except perhaps for the variable with the name. -/
structure State.AgreeOff (name : String) (s s' : State) : Prop where
  active : s.active = s'.active
  previous : s.previous = s'.previous
  since : s.since = s'.since
  values : Variables.AgreeOff name s.values s'.values

/-- The inputs are the same, except perhaps for the variable with the name. -/
structure Inputs.AgreeOff (name : String) (i i' : Inputs) : Prop where
  time : i.time = i'.time
  triggers : i.triggers = i'.triggers
  values : Variables.AgreeOff name i.values i'.values

/-- What two ticks are given is the same, except perhaps for the variable with the name. -/
structure Stimulus.AgreeOff (name : String) (k k' : Stimulus) : Prop where
  inputs : k.inputs.AgreeOff name k'.inputs
  globals : k.globals = k'.globals

/-- The effects are the same, except perhaps for the variable with the name. -/
structure Effects.AgreeOff (name : String) (e e' : Effects) : Prop where
  values : Variables.AgreeOff name e.values e'.values
  outputs : e.outputs = e'.outputs

/-- The condition of the action does not mention the variable, and the action does not set it. A
reset of the variable depends on nothing, nor does an output with its name. -/
structure Action.Ignores (a : Action) (name : String) : Prop where
  condition : ∀ text ∈ a.condition, ¬ Expression.Mentions text name
  stored : a.qualifier.isStored → a.name ≠ name

theorem Action.isAllowed_congr {a : Action} {name : String} {now now' : Moment}
    (h : now.AgreeOff name now') (ha : a.Ignores name) : a.isAllowed now = a.isAllowed now' := by
  unfold isAllowed
  cases hguard : a.guard? with
  | none => rfl
  | some text =>
    exact Expression.textHolds_congr h (ha.condition text (Option.filter_eq_some_iff.1 hguard).1)

namespace State.AgreeOff

variable {name : String} {s s' : State}

theorem refl (name : String) (s : State) : s.AgreeOff name s :=
  ⟨rfl, rfl, rfl, .refl name s.values⟩

theorem deactivate (h : s.AgreeOff name s') (x : NodeId) :
    (s.deactivate x).AgreeOff name (s'.deactivate x) where
  active := congrArg (·.erase x) h.active
  previous := h.previous
  since := congrArg (·.erase x) h.since
  values := h.values

theorem activate (h : s.AgreeOff name s') (time : Float) (x : NodeId) :
    (s.activate time x).AgreeOff name (s'.activate time x) where
  active := congrArg (·.insert x) h.active
  previous := h.previous
  since := congrArg (·.insert x time) h.since
  values := h.values

theorem foldl_deactivate (h : s.AgreeOff name s') (l : List NodeId) :
    (l.foldl State.deactivate s).AgreeOff name (l.foldl State.deactivate s') := by
  induction l generalizing s s' with
  | nil => exact h
  | cons x l ih => exact ih (h.deactivate x)

theorem foldl_activate (h : s.AgreeOff name s') (time : Float) (l : List NodeId) :
    (l.foldl (State.activate · time) s).AgreeOff name (l.foldl (State.activate · time) s') := by
  induction l generalizing s s' with
  | nil => exact h
  | cons x l ih => exact ih (h.activate time x)

theorem fire (h : s.AgreeOff name s') (rules : List Rule) (time : Float) :
    (Machine.fire s rules time).AgreeOff name (Machine.fire s' rules time) :=
  (h.foldl_deactivate _).foldl_activate time _

end State.AgreeOff

namespace Effects.AgreeOff

variable {name : String} {e e' : Effects}

theorem perform (h : e.AgreeOff name e') (a : Action) :
    (e.perform a).AgreeOff name (e'.perform a) where
  values := by
    rw [values_perform, values_perform]
    split
    · exact h.values.insert _ _
    · exact h.values
  outputs := by rw [outputs_perform, outputs_perform, h.outputs]

theorem foldl_perform (h : e.AgreeOff name e') (as : List Action) :
    (as.foldl Effects.perform e).AgreeOff name (as.foldl Effects.perform e') := by
  induction as generalizing e e' with
  | nil => exact h
  | cons a as ih => exact ih (h.perform a)

/-- Whether an output stays depends on no other variable than that of the output. -/
theorem latch (h : e.AgreeOff name e') {other : String} (hne : other ≠ name) :
    (e.latch other).AgreeOff name (e'.latch other) where
  values := by
    rw [values_latch, values_latch]
    exact h.values
  outputs := by
    rw [Effects.latch, Effects.latch, h.values.read_eq hne, h.outputs]
    split
    · rfl
    · exact h.outputs

theorem foldl_latch (h : e.AgreeOff name e') {names : List String} (hne : name ∉ names) :
    (names.foldl Effects.latch e).AgreeOff name (names.foldl Effects.latch e') := by
  induction names generalizing e e' with
  | nil => exact h
  | cons other names ih =>
    rw [List.mem_cons, not_or] at hne
    exact ih (h.latch (Ne.symm hne.1)) hne.2

end Effects.AgreeOff

/-! ### One tick -/

namespace Machine

variable {m : Machine} {name : String} {s s' : State} {i i' : Inputs} {globals : List Action}

theorem agreeOff_merged (hs : s.AgreeOff name s') (hi : i.AgreeOff name i') :
    Variables.AgreeOff name (merged s i) (merged s' i') :=
  hs.values.overlay_entries hi.values

/-- The conditions of transitions are evaluated in the same, apart from the variable. -/
theorem agreeOff_conditionMoment (hs : s.AgreeOff name s') (hi : i.AgreeOff name i') :
    (m.conditionMoment s i).AgreeOff name (m.conditionMoment s' i') where
  current := by
    rw [conditionMoment, conditionMoment, hs.since, hi.time]
    exact (agreeOff_merged hs hi).overlay _
  previous := by
    rw [conditionMoment, conditionMoment, hs.previous]
    exact hs.values.overlay _

theorem agreeOff_settled (hs : s.AgreeOff name s') (hi : i.AgreeOff name i')
    (hfiring : m.firing s i = m.firing s' i') :
    (m.settled s i).AgreeOff name (m.settled s' i') := by
  have hstart : State.AgreeOff name { s with previous := s.active, values := merged s i }
      { s' with previous := s'.active, values := merged s' i' } :=
    ⟨hs.active, hs.active, hs.since, agreeOff_merged hs hi⟩
  rw [settled, settled, hfiring, hi.time]
  exact hstart.fire _ _

/-- The conditions of actions are evaluated in the same, apart from the variable. -/
theorem agreeOff_actionMoment (hs : s.AgreeOff name s') (hi : i.AgreeOff name i')
    (hfiring : m.firing s i = m.firing s' i') :
    (m.actionMoment s i).AgreeOff name (m.actionMoment s' i') where
  current := by
    have hsettled := agreeOff_settled hs hi hfiring
    rw [actionMoment, actionMoment, hsettled.since, hi.time]
    exact hsettled.values.overlay _
  previous := by
    rw [actionMoment, actionMoment, hs.active]
    exact hs.values.overlay _

/-- The same actions act. -/
theorem acting_eq (hs : s.AgreeOff name s') (hi : i.AgreeOff name i')
    (hfiring : m.firing s i = m.firing s' i')
    (hactions : ∀ a ∈ m.actions ++ globals, a.Ignores name) :
    m.acting s i globals = m.acting s' i' globals := by
  have hacting : ∀ a ∈ m.actions ++ globals, ∀ time,
      m.isActing s i time a = m.isActing s' i' time a := by
    intro a ha time
    rw [isActing, isActing,
      Action.isAllowed_congr (agreeOff_actionMoment hs hi hfiring) (hactions a ha)]
  rw [acting, acting, (agreeOff_settled hs hi hfiring).since, hi.time]
  congr 1
  · refine List.flatMap_congr fun step hstep => List.filter_congr fun a ha => ?_
    have hmem : a ∈ m.actions ++ globals :=
      List.mem_append_left _ (List.mem_flatMap.2 ⟨step, hstep, ha⟩)
    simp only [hacting a hmem]
  · exact List.filter_congr fun a ha => hacting a (List.mem_append_right _ ha) 0

/-- If the same transitions fire, the tick has the same effects, apart from the variable. -/
theorem agreeOff_effects (hs : s.AgreeOff name s') (hi : i.AgreeOff name i')
    (hfiring : m.firing s i = m.firing s' i')
    (hactions : ∀ a ∈ m.actions ++ globals, a.Ignores name) :
    (m.effects (m.settled s i) (m.withFlags s.values s.active.toList) globals i.time).AgreeOff name
      (m.effects (m.settled s' i') (m.withFlags s'.values s'.active.toList) globals i'.time) := by
  rw [effects_settled, effects_settled, performed, performed, acting_eq hs hi hfiring hactions]
  have hlatched : name ∉ m.latched globals := by
    intro hmem
    obtain ⟨a, ha, hstored, hname⟩ := mem_storedNames.1 hmem
    exact (hactions a ha).stored hstored hname
  have hstart : Effects.AgreeOff name { values := merged s i } { values := merged s' i' } :=
    ⟨agreeOff_merged hs hi, rfl⟩
  exact (hstart.foldl_perform _).foldl_latch hlatched

end Machine

namespace Diagram

variable {α : Type} {d : Diagram α} {name : String} {s s' : State} {i i' : Inputs}

/-- No condition of the diagram mentions the variable, and no stored action has its name. -/
structure Ignores (d : Diagram α) (name : String) : Prop where
  conditions : ∀ t ∈ d.transitions, ¬ Expression.Mentions t.condition name
  actions : ∀ step ∈ d.steps, ∀ a ∈ step.actions, a.Ignores name

theorem Ignores.ofDiagram (h : d.Ignores name) (pulse : Float) :
    ∀ a ∈ (Machine.ofDiagram d pulse).actions, a.Ignores name := by
  intro a ha
  obtain ⟨step, hstep, ha⟩ := List.mem_flatMap.1 ha
  obtain ⟨node, hnode, rfl⟩ := List.mem_map.1 hstep
  exact h.actions node hnode a ha

/-- The same transitions fire. -/
theorem firing_eq (h : d.Ignores name) (pulse : Float) (hs : s.AgreeOff name s')
    (hi : i.AgreeOff name i') :
    (Machine.ofDiagram d pulse).firing s i = (Machine.ofDiagram d pulse).firing s' i' := by
  refine List.filter_congr fun r hr => ?_
  obtain ⟨t, ht, rfl⟩ := List.mem_map.1 hr
  simp only [Machine.fires, Rule.isEnabled, Expression.any_holds_parse, hs.active, hi.triggers]
  rw [Expression.textHolds_congr (Machine.agreeOff_conditionMoment hs hi) (h.conditions t ht)]

/-- A tick given the same apart from a variable without influence fires the same transitions,
reports the same outputs and leads to the same state, apart from the variable. -/
theorem agreeOff_tick (h : d.Ignores name) (pulse : Float) {k k' : Stimulus}
    (hglobals : ∀ a ∈ k.globals, a.Ignores name) (hs : s.AgreeOff name s')
    (hk : k.AgreeOff name k') :
    let result := (Machine.ofDiagram d pulse).tick s k.inputs k.globals
    let result' := (Machine.ofDiagram d pulse).tick s' k'.inputs k'.globals
    result.fired = result'.fired ∧ result.outputs = result'.outputs ∧
      result.state.AgreeOff name result'.state := by
  obtain ⟨i, globals⟩ := k
  obtain ⟨i', globals'⟩ := k'
  obtain ⟨hi, rfl⟩ := hk
  have hfiring := firing_eq h pulse hs hi
  have hall : ∀ a ∈ (Machine.ofDiagram d pulse).actions ++ globals, a.Ignores name :=
    List.forall_mem_append.2 ⟨h.ofDiagram pulse, hglobals⟩
  have hsettled := Machine.agreeOff_settled hs hi hfiring
  have heffects := Machine.agreeOff_effects hs hi hfiring hall
  refine ⟨congrArg (List.map Rule.id) hfiring, heffects.outputs, ?_⟩
  exact ⟨hsettled.active, hsettled.previous, hsettled.since, heffects.values⟩

/-! ### Runs -/

variable {run run' : List Stimulus}

/-- Ticks one after the other keep states the same, apart from the variable. -/
theorem agreeOff_foldl_tick (h : d.Ignores name) (pulse : Float)
    (hglobals : ∀ k ∈ run, ∀ a ∈ k.globals, a.Ignores name)
    (hruns : List.Forall₂ (Stimulus.AgreeOff name) run run') (hs : s.AgreeOff name s') :
    let next (s : State) (k : Stimulus) :=
      ((Machine.ofDiagram d pulse).tick s k.inputs k.globals).state
    (run.foldl next s).AgreeOff name (run'.foldl next s') := by
  intro next
  induction hruns generalizing s s' with
  | nil => exact hs
  | cons hk hrest ih =>
    obtain ⟨hfirst, hrestGlobals⟩ := List.forall_mem_cons.1 hglobals
    obtain ⟨-, -, hnext⟩ := agreeOff_tick h pulse hfirst hs hk
    exact ih hrestGlobals hnext

/-- Let a variable occur in no condition of a diagram and of the global actions, and let no stored
action have its name. Two runs that are given the same apart from the variable are in the same state
apart from it after any number of ticks, and in each tick the same transitions fire and the same
outputs are reported. -/
theorem agreeOff_stateAfter (d : Diagram α) (pulse time : Float) (name : String)
    (run run' : List Stimulus) (h : d.Ignores name)
    (hglobals : ∀ k ∈ run, ∀ a ∈ k.globals, a.Ignores name)
    (hruns : List.Forall₂ (Stimulus.AgreeOff name) run run') (j : Nat) :
    let m := Machine.ofDiagram d pulse
    (m.stateAfter time (run.take j)).AgreeOff name (m.stateAfter time (run'.take j)) ∧
      ∀ k ∈ run[j]?, ∃ k' ∈ run'[j]?,
        let result := m.tick (m.stateAfter time (run.take j)) k.inputs k.globals
        let result' := m.tick (m.stateAfter time (run'.take j)) k'.inputs k'.globals
        result.fired = result'.fired ∧ result.outputs = result'.outputs ∧
          result.state.AgreeOff name result'.state := by
  intro m
  have hstate : (m.stateAfter time (run.take j)).AgreeOff name (m.stateAfter time (run'.take j)) :=
    agreeOff_foldl_tick h pulse (fun k hk => hglobals k (List.mem_of_mem_take hk))
      (List.forall₂_take j hruns) (.refl name (m.start time))
  refine ⟨hstate, fun k hk => ?_⟩
  obtain ⟨hj, rfl⟩ := List.getElem?_eq_some_iff.1 hk
  have hj' : j < run'.length := hruns.length_eq ▸ hj
  have hagree : run[j].AgreeOff name run'[j] := hruns.get hj hj'
  exact ⟨run'[j], List.getElem?_eq_getElem hj',
    agreeOff_tick h pulse (hglobals _ (List.getElem_mem hj)) hstate hagree⟩

end Diagram

/-- A chart whose second step reports a noise and, once `HOT` is true, sets a lamp. -/
def lampWhenHot : String :=
  "Step 0 (Initial)\nTransition GO\nStep 1\nAction NOISE (N)\nAction LAMP (S, HOT)"

/-- Two ticks with a fan among their actions; the variable `NOISE` has the values given for it. -/
def twoTicks (first second : List (String × Value)) : List Stimulus :=
  [⟨{ time := 1, values := .ofList (first ++ [("GO", .bool true)]) }, []⟩,
    ⟨{ time := 2, values := .ofList (second ++ [("HOT", .bool true)]) },
      [{ name := "FAN", condition := some "HOT" }]⟩]

/-- The variable `NOISE` is true in one run and has no value in the other, which makes no difference
to the lamp. -/
theorem Diagram.agreeOff_stateAfter_lampWhenHot :
    ∃ d ws, Chart.compile {} lampWhenHot = .ok ⟨d, ws⟩ ∧
      let m := Machine.ofDiagram d 0.1
      let noisy := twoTicks [("NOISE", .bool true)] [("NOISE", .number 3)]
      let quiet := twoTicks [] []
      (d.Ignores "NOISE" ∧ (∀ k ∈ noisy, ∀ a ∈ k.globals, a.Ignores "NOISE") ∧
        List.Forall₂ (Stimulus.AgreeOff "NOISE") noisy quiet) ∧
      ((m.stateAfter 0 (noisy.take 1)).isTrue "NOISE" ∧
        ¬ (m.stateAfter 0 (quiet.take 1)).isTrue "NOISE") ∧
      (m.stateAfter 0 (noisy.take 2)).AgreeOff "NOISE" (m.stateAfter 0 (quiet.take 2)) ∧
        (m.stateAfter 0 (quiet.take 2)).isTrue "LAMP" := by
  obtain ⟨d, ws, hcompile, hruns⟩ := Chart.exists_compile_of_any lampWhenHot (fun d =>
      let m := Machine.ofDiagram d 0.1
      let noisy := twoTicks [("NOISE", .bool true)] [("NOISE", .number 3)]
      let quiet := twoTicks [] []
      d.transitions.map (·.condition) = ["GO"] ∧
        (d.steps.flatMap (·.actions)).map (fun a => (a.name, a.qualifier, a.condition)) =
          [("NOISE", .nonStored, none), ("LAMP", .set, some "HOT")] ∧
        (m.stateAfter 0 (noisy.take 1)).isTrue "NOISE" ∧
          ¬ (m.stateAfter 0 (quiet.take 1)).isTrue "NOISE" ∧
            (m.stateAfter 0 (noisy.take 2)).isTrue "LAMP")
    (by decide +kernel)
  obtain ⟨htexts, hactions, hnoisy, hquiet, hlamp⟩ := of_decide_eq_true hruns
  refine ⟨d, ws, hcompile, ?_⟩
  intro m noisy quiet
  have hgo : ¬ Expression.Mentions "GO" "NOISE" := by
    have hname : Expression.IsVariable "GO" := rfl
    rw [hname.mentions_iff]
    decide
  have hhot : ¬ Expression.Mentions "HOT" "NOISE" := by
    have hname : Expression.IsVariable "HOT" := rfl
    rw [hname.mentions_iff]
    decide
  have hne : "LAMP" ≠ "NOISE" := by decide
  have hignores : d.Ignores "NOISE" := by
    constructor
    · intro t ht
      have hmem : t.condition ∈ ["GO"] := htexts ▸ List.mem_map_of_mem ht
      rwa [List.mem_singleton.1 hmem]
    · intro step hstep a ha
      have hmem : (a.name, a.qualifier, a.condition) ∈
          [("NOISE", Qualifier.nonStored, none), ("LAMP", .set, some "HOT")] :=
        hactions ▸ List.mem_map_of_mem (List.mem_flatMap.2 ⟨step, hstep, ha⟩)
      obtain ⟨name, qualifier, condition, duration⟩ := a
      simp only [List.mem_cons, Prod.mk.injEq, List.not_mem_nil, or_false] at hmem
      rcases hmem with ⟨rfl, rfl, rfl⟩ | ⟨rfl, rfl, rfl⟩
      · exact ⟨nofun, nofun⟩
      · exact ⟨fun text htext => Option.mem_some.1 htext ▸ hhot, fun _ => hne⟩
  have hglobals : ∀ k ∈ noisy, ∀ a ∈ k.globals, a.Ignores "NOISE" := by
    simp only [noisy, twoTicks, List.forall_mem_cons]
    exact ⟨nofun, ⟨⟨fun text htext => Option.mem_some.1 htext ▸ hhot, nofun⟩, nofun⟩, nofun⟩
  have hagree : List.Forall₂ (Stimulus.AgreeOff "NOISE") noisy quiet := by
    refine .cons ⟨⟨rfl, rfl, ?_⟩, rfl⟩ (.cons ⟨⟨rfl, rfl, ?_⟩, rfl⟩ .nil)
    · exact (Variables.AgreeOff.insert_self ∅ _).overlay [("GO", .bool true)]
    · exact (Variables.AgreeOff.insert_self ∅ _).overlay [("HOT", .bool true)]
  obtain ⟨hstates, -⟩ :=
    agreeOff_stateAfter d 0.1 0 "NOISE" noisy quiet hignores hglobals hagree 2
  refine ⟨⟨hignores, hglobals, hagree⟩, ⟨hnoisy, hquiet⟩, hstates, ?_⟩
  have hread := hstates.values.read_eq hne
  rwa [State.isTrue, ← hread]

end SequentialChart
