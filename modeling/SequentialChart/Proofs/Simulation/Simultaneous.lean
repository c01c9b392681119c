import Mathlib
import SequentialChart.Proofs.Simulation.Clocks
import SequentialChart.Proofs.Simulation.Edges
import SequentialChart.Proofs.Simulation.Irrelevance

/-!
# The rule of simultaneous firing

A tick decides every transition by itself, on the state before it. All steps in front of the
transitions that fire are left, then all steps behind them are entered, and nothing depends on the
order in which that is done.

## Main definitions

* `Diagram.IsEnabled`, `Diagram.Fires` — when a transition can fire, and when it does.
* `Diagram.IsView` — the variables that conditions see.
* `TickResult.IsReorderingOf` — two results that differ only in the order of transitions and steps.

## Main statements

* `State.toList_active_fire` — the active steps after transitions have fired, in their order.
* `Diagram.fired_tick`, `Diagram.isView_conditionMoment` — what is decided, and on what.
* `Machine.isReorderingOf_tick` — a tick of a machine whose transitions stand in another order.
* `Diagram.simultaneous_tick` — the rule.
-/

namespace SequentialChart

/-! ### Firing -/

namespace State

variable {s : State} {time : Float}

theorem active_foldl_deactivate (l : List NodeId) :
    (l.foldl deactivate s).active = l.foldl OrderedSet.erase s.active := by
  induction l generalizing s with
  | nil => rfl
  | cons x l ih => exact ih

theorem active_foldl_activate (l : List NodeId) :
    (l.foldl (activate · time) s).active = s.active.insertAll l := by
  induction l generalizing s with
  | nil => rfl
  | cons x l ih => exact ih

/-- The steps that are not left keep their places; those that are new come after them. -/
theorem toList_active_fire (s : State) (rules : List Rule) (time : Float) :
    let kept := s.active.toList.filter (· ∉ rules.flatMap (·.sources))
    (Machine.fire s rules time).active.toList =
      kept ++ ((rules.flatMap (·.targets)).filter (· ∉ kept)).eraseDups := by
  intro kept
  have hkept : ((rules.flatMap (·.sources)).foldl OrderedSet.erase s.active).toList = kept :=
    OrderedSet.toList_foldl_erase _ _
  rw [Machine.fire, active_foldl_activate, active_foldl_deactivate, OrderedSet.toList_insertAll,
    ← hkept]
  rfl

end State

/-! ### Deciding -/

namespace Diagram

variable {α : Type} {d : Diagram α} {pulse : Float} {s : State} {i : Inputs}
  {globals : List Action}

/-- There is a step before the transition, and all such steps are active. -/
def IsEnabled (d : Diagram α) (s : State) (t : TransitionNode α) : Prop :=
  d.predecessors t.id ≠ [] ∧ ∀ x ∈ d.predecessors t.id, x ∈ s.active

instance (d : Diagram α) (s : State) (t : TransitionNode α) : Decidable (d.IsEnabled s t) :=
  inferInstanceAs (Decidable (_ ∧ _))

/-- The transition is enabled, and it is triggered or its condition holds. -/
def Fires (d : Diagram α) (s : State) (i : Inputs) (now : Moment) (t : TransitionNode α) : Prop :=
  d.IsEnabled s t ∧ (t.id ∈ i.triggers ∨ Expression.textHolds t.condition now = true)

instance (d : Diagram α) (s : State) (i : Inputs) (now : Moment) (t : TransitionNode α) :
    Decidable (d.Fires s i now t) :=
  inferInstanceAs (Decidable (_ ∧ _))

/-- The rule of a transition. -/
def rule (d : Diagram α) (t : TransitionNode α) : Rule where
  id := t.id
  condition := (Expression.parse t.condition).toOption
  sources := d.predecessors t.id
  targets := d.successors t.id

theorem isEnabled_rule_iff {t : TransitionNode α} : (d.rule t).isEnabled s ↔ d.IsEnabled s t := by
  simp [Rule.isEnabled, rule, IsEnabled]

theorem fires_rule_iff {now : Moment} {t : TransitionNode α} :
    Machine.fires s i now (d.rule t) ↔ d.Fires s i now t := by
  rw [Machine.fires, Bool.and_eq_true, isEnabled_rule_iff, Fires]
  simp [rule, Expression.any_holds_parse]

/-- The transitions whose rules fire are those that do, in diagram order. -/
theorem firing_ofDiagram : (Machine.ofDiagram d pulse).firing s i =
    (d.transitions.filter
      (d.Fires s i ((Machine.ofDiagram d pulse).conditionMoment s i))).map d.rule := by
  have hrules : (Machine.ofDiagram d pulse).rules = d.transitions.map d.rule := rfl
  rw [Machine.firing, hrules, List.filter_map]
  congr 1
  refine List.filter_congr fun t _ => ?_
  rw [Function.comp_apply, Bool.eq_iff_iff, fires_rule_iff, decide_eq_true_iff]

theorem fired_tick : ((Machine.ofDiagram d pulse).tick s i globals).fired =
    (d.transitions.filter
      (d.Fires s i ((Machine.ofDiagram d pulse).conditionMoment s i))).map (·.id) := by
  rw [Machine.tick, firing_ofDiagram, List.map_map]
  rfl

theorem enabled_ofDiagram : (Machine.ofDiagram d pulse).enabled s =
    (d.transitions.filter (d.IsEnabled s)).map (·.id) := by
  have hrules : (Machine.ofDiagram d pulse).rules = d.transitions.map d.rule := rfl
  rw [Machine.enabled, hrules, List.filter_map, List.map_map]
  refine congrArg (List.map _) (List.filter_congr fun t _ => ?_)
  rw [Function.comp_apply, Bool.eq_iff_iff, isEnabled_rule_iff, decide_eq_true_iff]

/-- A transition that is triggered fires exactly if it is enabled. -/
theorem fired_tick_of_triggers (h : ∀ t ∈ d.transitions, t.id ∈ i.triggers) :
    ((Machine.ofDiagram d pulse).tick s i globals).fired =
      (Machine.ofDiagram d pulse).enabled s := by
  rw [fired_tick, enabled_ofDiagram]
  refine congrArg (List.map _) (List.filter_congr fun t ht => ?_)
  simp [Fires, h t ht]

/-! ### What conditions see -/

/-- The variables are those of the state with the inputs laid over them; over these, the flags and
the clocks of the steps of the diagram that have a time. -/
structure IsView (d : Diagram α) (s : State) (i : Inputs) (now : Variables) : Prop where
  step : ∀ step ∈ d.steps, ∀ since, s.since.get? step.id = some since →
    now.get? (flagName step.number) = some (.bool true) ∧
      now.get? (clockName step.number) = some (.number (elapsed i.time since))
  other : ∀ name, (∀ step ∈ d.steps, (s.since.get? step.id).isSome →
      name ≠ flagName step.number ∧ name ≠ clockName step.number) →
    now.get? name = (i.values.get? name).or (s.values.get? name)

theorem isView_conditionMoment :
    d.IsView s i ((Machine.ofDiagram d pulse).conditionMoment s i).current where
  step step hstep since hsince := by
    have hn : (Machine.ofDiagram d pulse).number? (.step step.number) = some step.number :=
      number?_ofDiagram ⟨step, hstep, rfl⟩
    exact ⟨Machine.get?_withClocks_flagName hn hsince, Machine.get?_withClocks_clockName hn hsince⟩
  other name hname := by
    rw [Machine.conditionMoment, Machine.withClocks, OrderedMap.get?_overlay_of_not_mem,
      Machine.merged, OrderedMap.get?_overlay_entries]
    intro hmem
    obtain ⟨⟨_, v⟩, hentry, rfl⟩ := List.mem_map.1 hmem
    obtain ⟨n, since, hn, hsince, hv⟩ := Machine.mem_clocks_iff.1 hentry
    -- only steps of the diagram have a number
    obtain ⟨found, hfound, hnumber⟩ := Option.map_eq_some_iff.1 hn
    obtain ⟨step, hstep, rfl⟩ := List.mem_map.1 (List.mem_of_find?_eq_some hfound)
    obtain rfl : step.number = n := hnumber
    have := hname step hstep (Option.isSome_iff_exists.2 ⟨since, hsince⟩)
    grind

end Diagram

/-! ### Order does not matter -/

/-- The results are the same, except that transitions and steps may stand in another order. -/
structure TickResult.IsReorderingOf (r r' : TickResult) : Prop where
  fired : r.fired.Perm r'.fired
  active : r.state.active.toList.Perm r'.state.active.toList
  since : r.state.since.entries.Perm r'.state.since.entries
  previous : r.state.previous = r'.state.previous
  values : r.state.values = r'.state.values
  outputs : r.outputs = r'.outputs

theorem OrderedMap.perm_entries {κ ν : Type} [DecidableEq κ] {m m' : OrderedMap κ ν}
    (h : ∀ k, m.get? k = m'.get? k) : m.entries.Perm m'.entries := by
  have hnodup (m : OrderedMap κ ν) : m.entries.Nodup := .of_map _ m.nodup
  refine (List.perm_ext_iff_of_nodup (hnodup m) (hnodup m')).2 fun ⟨k, v⟩ => ?_
  rw [mem_entries_iff, mem_entries_iff, h]

/-- What is laid over a map may stand in any order, if it gives every key one value. -/
theorem OrderedMap.get?_overlay_congr {κ ν : Type} [DecidableEq κ] (m : OrderedMap κ ν)
    {l l' : List (κ × ν)} (h : ∀ e, e ∈ l ↔ e ∈ l')
    (hunique : ∀ k v w, (k, v) ∈ l → (k, w) ∈ l → w = v) (k : κ) :
    (m.overlay l).get? k = (m.overlay l').get? k := by
  by_cases hk : k ∈ l.map Prod.fst
  · obtain ⟨⟨k', v⟩, hmem, rfl⟩ := List.mem_map.1 hk
    rw [get?_overlay_of_mem m hmem fun w hw => hunique _ _ _ hmem hw,
      get?_overlay_of_mem m ((h _).1 hmem) fun w hw => hunique _ _ _ hmem ((h _).2 hw)]
  · have hk' : k ∉ l'.map Prod.fst := by
      simp only [List.mem_map, not_exists, not_and] at hk ⊢
      exact fun e he => hk e ((h e).2 he)
    rw [get?_overlay_of_not_mem m k hk, get?_overlay_of_not_mem m k hk']

/-- Whether a text holds is decided by what it reads. -/
theorem Expression.textHolds_of_read {now now' : Moment}
    (hcurrent : ∀ name, now.current.read name = now'.current.read name)
    (hprevious : ∀ name, now.previous.read name = now'.previous.read name) (text : String) :
    textHolds text now = textHolds text now' := by
  have hoperand : now.operand = now'.operand := by
    funext o
    cases o <;> simp [Moment.operand, hcurrent]
  have hunary : now.unary = now'.unary := by
    funext op r
    cases op <;> simp [Moment.unary, Moment.rises, Moment.falls, hprevious]
  have hstep : Symbol.step now = Symbol.step now' := by
    funext s stack
    fun_cases Symbol.step now s stack <;> simp_all [Symbol.step]
  have hrun (symbols : List Symbol) (stack : List Result) :
      Postfix.run now symbols stack = Postfix.run now' symbols stack := by
    induction symbols generalizing stack with
    | nil => rfl
    | cons s symbols ih => simp only [Postfix.run, hstep, funext ih]
  unfold textHolds
  cases parse text with
  | error => rfl
  | ok e => simp only [holds, value, Postfix.evaluate, hrun]

namespace Machine

variable {m : Machine} {s s' : State} {i : Inputs} {globals : List Action}

theorem get?_withClocks_congr {values : Variables} {since since' : OrderedMap NodeId Float}
    (h : ∀ x, since.get? x = since'.get? x) (now : Float) (name : String) :
    (m.withClocks values since now).get? name = (m.withClocks values since' now).get? name := by
  refine OrderedMap.get?_overlay_congr _ ?_ ?_ name
  · rintro ⟨k, v⟩
    rw [mem_clocks_iff, mem_clocks_iff]
    simp only [h]
  · intro k v w hv hw
    obtain ⟨n, t, -, ht, hv⟩ := mem_clocks_iff.1 hv
    obtain ⟨n', t', -, ht', hw⟩ := mem_clocks_iff.1 hw
    rcases hv with ⟨rfl, rfl⟩ | ⟨rfl, rfl⟩ <;> rcases hw with ⟨hname, rfl⟩ | ⟨hname, rfl⟩
    · rfl
    · exact absurd hname (flagName_ne_clockName n n')
    · exact absurd hname.symm (flagName_ne_clockName n' n)
    · obtain rfl := clockName_injective hname
      rw [ht] at ht'
      rw [Option.some.inj ht']

/-- The effects of actions do not depend on the order in which steps became active. -/
theorem effects_congr (hvalues : s.values = s'.values)
    (hsince : ∀ x, s.since.get? x = s'.since.get? x) (previous : Variables)
    (globals : List Action) (now : Float) :
    m.effects s previous globals now = m.effects s' previous globals now := by
  have hschedule : m.schedule s globals now = m.schedule s' globals now := by
    simp only [schedule, hsince]
  have hread (name : String) : (m.withClocks s'.values s.since now).read name =
      (m.withClocks s'.values s'.since now).read name := by
    rw [Variables.read, Variables.read, get?_withClocks_congr hsince]
  have htext (text : String) :
      Expression.textHolds text ⟨m.withClocks s'.values s.since now, previous⟩ =
        Expression.textHolds text ⟨m.withClocks s'.values s'.since now, previous⟩ := by
    refine Expression.textHolds_of_read ?_ ?_ text
    · exact hread
    · exact fun _ => rfl
  have hallowed (a : Action) : a.isAllowed ⟨m.withClocks s'.values s.since now, previous⟩ =
      a.isAllowed ⟨m.withClocks s'.values s'.since now, previous⟩ := by
    simp only [Action.isAllowed, htext]
  simp only [effects, Effects.act, hschedule, hvalues, hallowed]

/-- A machine whose transitions stand in another order does the same in a tick. -/
theorem isReorderingOf_tick {rules : List Rule} (h : rules.Perm m.rules) :
    (({ m with rules } : Machine).tick s i globals).IsReorderingOf (m.tick s i globals) := by
  have hfiring : (({ m with rules } : Machine).firing s i).Perm (m.firing s i) := h.filter _
  have hsources := hfiring.flatMap_right (·.sources)
  have htargets := hfiring.flatMap_right (·.targets)
  have hsince (x : NodeId) :
      (({ m with rules } : Machine).settled s i).since.get? x = (m.settled s i).since.get? x := by
    simp only [settled, get?_since_fire, hsources.mem_iff, htargets.mem_iff]
  have hactive (x : NodeId) :
      x ∈ (({ m with rules } : Machine).tick s i globals).state.active ↔
        x ∈ (m.tick s i globals).state.active := by
    rw [mem_active_tick, mem_active_tick, moveAll_perm hfiring]
  -- steps may have become active in another order, but at the same times
  have heffects :
      m.effects (({ m with rules } : Machine).settled s i) (m.withFlags s.values s.active.toList)
        globals i.time =
      m.effects (m.settled s i) (m.withFlags s.values s.active.toList) globals i.time := by
    refine effects_congr ?_ hsince _ _ _
    rw [values_settled, values_settled]
  exact {
    fired := hfiring.map _
    active := (List.perm_ext_iff_of_nodup (OrderedSet.nodup _) (OrderedSet.nodup _)).2 hactive
    since := OrderedMap.perm_entries hsince
    previous := by rw [previous_tick, previous_tick]
    values := congrArg Effects.values heffects
    outputs := congrArg Effects.outputs heffects }

/-- Whether a transition fires depends on no other transition. -/
theorem mem_firing_iff_alone {rule : Rule} (h : rule ∈ m.rules) :
    rule ∈ m.firing s i ↔ ({ m with rules := [rule] } : Machine).firing s i = [rule] := by
  have hmoment : ({ m with rules := [rule] } : Machine).conditionMoment s i =
    m.conditionMoment s i := rfl
  simp [firing, hmoment, h]

end Machine

/-! ### The rule -/

/-- A tick fires the transitions that are enabled and triggered or whose condition holds, all of
them at once on the state before it. Of the active steps those stay, in their order, that no such
transition leaves, and those that are entered come after them; only these have the time of the tick.
Neither the order of the transitions nor the presence of others matters for what a transition does,
and if all are triggered, exactly the enabled ones fire. -/
theorem Diagram.simultaneous_tick {α : Type} (d : Diagram α) (pulse : Float) (s : State)
    (i : Inputs) (globals : List Action) :
    let m := Machine.ofDiagram d pulse
    let now := m.conditionMoment s i
    let r := m.tick s i globals
    let fired := d.transitions.filter (d.Fires s i now)
    let left := fired.flatMap fun t => d.predecessors t.id
    let entered := fired.flatMap fun t => d.successors t.id
    let kept := s.active.toList.filter (· ∉ left)
    d.IsView s i now.current ∧
      r.fired = fired.map (·.id) ∧
      r.state.active.toList = kept ++ (entered.filter (· ∉ kept)).eraseDups ∧
      (∀ x, r.state.since.get? x =
        if x ∈ entered then some i.time else if x ∈ left then none else s.since.get? x) ∧
      (∀ rules, rules.Perm m.rules →
        (({ m with rules } : Machine).tick s i globals).IsReorderingOf r) ∧
      (∀ rule ∈ m.rules, rule ∈ m.firing s i ↔
        ({ m with rules := [rule] } : Machine).firing s i = [rule]) ∧
      m.enabled s = (d.transitions.filter (d.IsEnabled s)).map (·.id) ∧
      ((∀ t ∈ d.transitions, t.id ∈ i.triggers) → r.fired = m.enabled s) := by
  intro m now r fired left entered kept
  have hfiring : m.firing s i = fired.map d.rule := firing_ofDiagram
  have hleft : (m.firing s i).flatMap (·.sources) = left := by
    rw [hfiring, List.flatMap_map]
    rfl
  have hentered : (m.firing s i).flatMap (·.targets) = entered := by
    rw [hfiring, List.flatMap_map]
    rfl
  have hactive : r.state.active.toList = kept ++ (entered.filter (· ∉ kept)).eraseDups := by
    simp only [kept, ← hleft, ← hentered]
    exact State.toList_active_fire _ _ _
  have hsince (x : NodeId) : r.state.since.get? x =
      if x ∈ entered then some i.time else if x ∈ left then none else s.since.get? x := by
    rw [← hleft, ← hentered]
    exact Machine.get?_since_tick
  exact ⟨isView_conditionMoment, fired_tick, hactive, hsince,
    fun _ => Machine.isReorderingOf_tick, fun _ => Machine.mem_firing_iff_alone,
    enabled_ofDiagram, fired_tick_of_triggers⟩

end SequentialChart
