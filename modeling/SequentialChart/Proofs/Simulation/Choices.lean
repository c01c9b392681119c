import Mathlib
import SequentialChart.Proofs.Chart.Places
import SequentialChart.Proofs.Diagram.Neighbourhoods
import SequentialChart.Proofs.Simulation.Simultaneous

/-!
# Choices between branches

Each branch of an OR divergence begins with a transition, and all of these leave the step in front
of the divergence. Every transition is decided by itself on the state before the tick, so which
branches are entered depends on nothing but that step, the triggers and the conditions. In
particular, branches exclude each other only as far as their conditions do.

## Main definitions

* `Branch.openings` — the transitions that branches begin with.
* `Diagram.IsCleared` — a transition is triggered or its condition holds.

## Main statements

* `Diagram.mem_fired_iff` — the transitions that fire.
* `Chart.mem_fired_openings_iff` — those among the openings of an OR divergence.
-/

namespace SequentialChart

/-- The transitions that branches begin with. -/
def Branch.openings (bs : List Branch) : List NodeId :=
  (Element.transitionNumbers (heads bs)).map .transition

namespace Branch

/-- If all branches begin with a transition, each has one opening. -/
theorem forall₂_openings {bs : List Branch}
    (h : ∀ b ∈ bs, ∃ t rest, b.elements = .transition t :: rest) :
    List.Forall₂ (fun b x => ∃ t rest, b.elements = .transition t :: rest ∧
      x = .transition t.number) bs (openings bs) := by
  induction bs with
  | nil => exact .nil
  | cons b bs ih =>
    obtain ⟨⟨t, rest, hb⟩, hbs⟩ := List.forall_mem_cons.1 h
    have hopenings : openings (b :: bs) = .transition t.number :: openings bs := by
      simp [openings, heads, hb, Element.transitionNumbers, Element.transition?]
    rw [hopenings]
    exact .cons ⟨t, rest, hb, rfl⟩ (ih hbs)

theorem exists_of_mem_openings {bs : List Branch} {x : NodeId} (h : x ∈ openings bs) :
    ∃ b ∈ bs, ∃ t, b.elements.head? = some (.transition t) ∧ x = .transition t.number := by
  obtain ⟨k, hk, rfl⟩ := List.mem_map.1 h
  obtain ⟨t, ht, rfl⟩ := List.mem_map.1 hk
  obtain ⟨e, he, het⟩ := List.mem_filterMap.1 ht
  obtain ⟨b, hb, hhead⟩ := List.mem_filterMap.1 he
  cases e <;> simp only [Element.transition?, Option.some.injEq, reduceCtorEq] at het
  exact ⟨b, hb, t, het ▸ hhead, rfl⟩

theorem openings_sublist (bs : List Branch) :
    (openings bs).Sublist ((Element.transitionNumbers (walkBranches bs)).map .transition) :=
  (((heads_sublist bs).filterMap _).map _).map _

end Branch

/-- No transition opens two branches. -/
theorem Chart.nodup_openings {c : Chart} {es front rest : List Element} {bs : List Branch}
    {span endSpan : Span} (htransitions : (Element.transitionNumbers c.walk).Nodup)
    (hes : es ∈ c.sequences) (heq : es = front ++ .divergence .or bs span endSpan :: rest) :
    (Branch.openings bs).Nodup := by
  have hwalk : (Branch.walkBranches bs).Sublist c.walk := by
    refine .trans ?_ (walkAll_sublist_of_mem_sequences hes)
    rw [heq, Element.walkAll_append]
    exact Element.StandIn.walkBranches_sublist.trans (List.sublist_append_right _ _)
  have hall : ((Element.transitionNumbers (Branch.walkBranches bs)).map
      NodeId.transition).Nodup :=
    (htransitions.sublist ((hwalk.filterMap _).map _)).map fun _ _ => NodeId.transition.inj
  exact hall.sublist (Branch.openings_sublist bs)

namespace Diagram

variable {α : Type} {d : Diagram α} {pulse : Float} {s : State} {i : Inputs}
  {globals : List Action} {id : NodeId}

/-- A transition is triggered, or its condition holds before the tick. -/
def IsCleared (d : Diagram α) (pulse : Float) (s : State) (i : Inputs) (id : NodeId) : Prop :=
  id ∈ i.triggers ∨ ∃ t ∈ d.transitions, t.id = id ∧
    Expression.textHolds t.condition ((Machine.ofDiagram d pulse).conditionMoment s i)

/-- A transition fires if it has steps before it, all of these are active, and it is triggered or
its condition holds. -/
theorem mem_fired_iff : id ∈ ((Machine.ofDiagram d pulse).tick s i globals).fired ↔
    (∃ t ∈ d.transitions, t.id = id) ∧
      (d.predecessors id ≠ [] ∧ ∀ x ∈ d.predecessors id, x ∈ s.active) ∧
        d.IsCleared pulse s i id := by
  simp only [fired_tick, List.mem_map, List.mem_filter, decide_eq_true_eq]
  constructor
  · rintro ⟨t, ⟨ht, henabled, hcleared⟩, rfl⟩
    exact ⟨⟨t, ht, rfl⟩, henabled, hcleared.imp_right fun h => ⟨t, ht, rfl, h⟩⟩
  · rintro ⟨⟨t, ht, rfl⟩, henabled, htrigger | ⟨t', ht', hid, hholds⟩⟩
    · exact ⟨t, ⟨ht, henabled, .inl htrigger⟩, rfl⟩
    · exact ⟨t', ⟨ht', by rwa [IsEnabled, hid], .inr hholds⟩, hid⟩

/-- The steps after a transition that fires are active after the tick. -/
theorem mem_active_tick_of_mem_fired {y : NodeId}
    (h : id ∈ ((Machine.ofDiagram d pulse).tick s i globals).fired) (hy : y ∈ d.successors id) :
    y ∈ ((Machine.ofDiagram d pulse).tick s i globals).state.active := by
  obtain ⟨r, hr, rfl⟩ := List.mem_map.1 h
  refine Machine.mem_active_tick_of_mem_targets hr ?_
  obtain ⟨t, -, rfl⟩ := List.mem_map.1 (Machine.mem_of_mem_firing hr)
  exact hy

/-- A transition that opens a branch of an OR divergence fires if the step in front of the
divergence is active and the transition is triggered or its condition holds. -/
theorem Shows.mem_fired_opening_iff {c : Chart} {front rest : List Element} {bs : List Branch}
    {span endSpan : Span} {step : Step} (hshows : d.Shows c) (hrules : c.FollowsRules false)
    (htransitions : (Element.transitionNumbers c.walk).Nodup)
    (hes : front ++ .divergence .or bs span endSpan :: rest ∈ c.sequences)
    (hstep : front.getLast? = some (.step step)) (hid : id ∈ Branch.openings bs) :
    id ∈ ((Machine.ofDiagram d pulse).tick s i globals).fired ↔
      .step step.number ∈ s.active ∧ d.IsCleared pulse s i id := by
  obtain ⟨b, hb, t, hhead, rfl⟩ := Branch.exists_of_mem_openings hid
  obtain ⟨n, hn, htransition, hpredecessors⟩ :=
    Chart.exists_neighbourhood_opening hes hstep hb hhead
  rw [← hshows.map_neighbourhood hrules htransitions] at hn
  obtain ⟨node, hnode, rfl⟩ := List.mem_map.1 hn
  have hnumber : node.id = .transition t.number := htransition
  have hbefore : d.predecessors (.transition t.number) = [.step step.number] :=
    hnumber ▸ hpredecessors
  rw [mem_fired_iff, hbefore]
  simp only [List.forall_mem_singleton, ne_eq, List.cons_ne_nil, not_false_eq_true, true_and]
  exact and_iff_right ⟨node, hnode, hnumber⟩

end Diagram

namespace Chart

/-- Of the transitions that open the branches of an OR divergence, those fire that are triggered or
whose condition holds, provided that the step in front of the divergence is active. So at most one
fires exactly if that step is inactive or at most one is triggered or has a condition that holds.
The steps behind each of them that fires are active afterwards. -/
theorem mem_fired_openings_iff {config : Config} {source : String} {d : Diagram Float32}
    {warnings : List Diagnostic} (hcompile : compile config source = .ok ⟨d, warnings⟩) :
    ∃ c ws, check source = .ok (c, ws) ∧ ∀ es ∈ c.sequences, ∀ front bs span endSpan rest,
      es = front ++ .divergence .or bs span endSpan :: rest →
        ∃ step, front.getLast? = some (.step step) ∧
          List.Forall₂ (fun b x => ∃ t rest, b.elements = .transition t :: rest ∧
            x = .transition t.number) bs (Branch.openings bs) ∧
          (Branch.openings bs).Nodup ∧
          ∀ pulse s i globals,
            let result := (Machine.ofDiagram d pulse).tick s i globals
            (∀ x ∈ Branch.openings bs,
              x ∈ result.fired ↔ .step step.number ∈ s.active ∧ d.IsCleared pulse s i x) ∧
            ({x | x ∈ Branch.openings bs ∧ x ∈ result.fired}.Subsingleton ↔
              (.step step.number ∈ s.active →
                {x | x ∈ Branch.openings bs ∧ d.IsCleared pulse s i x}.Subsingleton)) ∧
            ∀ x ∈ Branch.openings bs, x ∈ result.fired →
              ∀ y ∈ d.successors x, y ∈ result.state.active := by
  obtain ⟨c, hall, hdraw⟩ := compile_eq_ok_iff.1 hcompile
  obtain ⟨ws, hcheck, -⟩ := checkAll_eq_ok_iff.1 hall
  obtain ⟨d', hdraw', hshows⟩ := exists_draw_of_check hcheck config.spacing
  obtain rfl : d' = d := by simpa [hdraw'] using hdraw
  have hrules := followsRules_of_check hcheck
  have htransitions := nodup_transitions_of_check hcheck
  refine ⟨c, ws, hcheck, fun es hes front bs span endSpan rest heq => ?_⟩
  have horderly := (followsRules_iff_isValid.1 hrules).orderly es hes
  obtain ⟨step, hstep⟩ := horderly.or_follows _ _ _ _ _ heq
  have hopens : ∀ b ∈ bs, ∃ t rest, b.elements = .transition t :: rest := fun b hb =>
    (horderly.or_branch bs span endSpan (by simp [heq]) b hb).1
  refine ⟨step, hstep, Branch.forall₂_openings hopens, nodup_openings htransitions hes heq, ?_⟩
  intro pulse s i globals result
  have hfired : ∀ x ∈ Branch.openings bs,
      x ∈ result.fired ↔ .step step.number ∈ s.active ∧ d'.IsCleared pulse s i x := fun x hx =>
    hshows.mem_fired_opening_iff hrules htransitions (heq ▸ hes) hstep hx
  refine ⟨hfired, ?_, fun x _ hx y hy => Diagram.mem_active_tick_of_mem_fired hx hy⟩
  have hset : {x | x ∈ Branch.openings bs ∧ x ∈ result.fired} =
      {x | x ∈ Branch.openings bs ∧ .step step.number ∈ s.active ∧ d'.IsCleared pulse s i x} := by
    ext x
    exact and_congr_right (hfired x)
  rw [hset]
  by_cases hactive : .step step.number ∈ s.active <;> simp [hactive]

end Chart

/-- A step, an OR divergence behind it, and one more element. -/
theorem Chart.exists_choice {c : Chart} {number : Nat} {openings : List NodeId}
    (hkinds : c.elements.map (·.kind) = [.step, .divergence .or, .step])
    (hnumber : (c.elements.head?.bind Element.step?).map (·.number) = some number)
    (hopenings : (c.elements[1]?.map Element.branches).map Branch.openings = some openings) :
    ∃ step bs span endSpan rest,
      c.elements = [.step step] ++ .divergence .or bs span endSpan :: rest ∧
        step.number = number ∧ Branch.openings bs = openings := by
  obtain ⟨first, choice, last, helements, hfirst, hchoice, -⟩ : ∃ first choice last,
      c.elements = [first, choice, last] ∧ first.kind = .step ∧ choice.kind = .divergence .or ∧
        last.kind = .step := by
    simpa [List.map_eq_cons_iff, and_assoc] using hkinds
  cases first with
  | transition t | jump j | divergence => cases hfirst
  | step step =>
    cases choice with
    | step s | transition t | jump j => cases hchoice
    | divergence junction bs span endSpan =>
      obtain rfl : junction = .or := by simpa [Element.kind] using hchoice
      refine ⟨step, bs, span, endSpan, [last], helements, ?_, ?_⟩
      · simpa [helements, Element.step?] using hnumber
      · simpa [helements, Element.branches] using hopenings

/-- A chart that goes on in one way or another, depending on whether `HOT` is true. -/
def hotOrCold : String :=
  "Step 0 (Initial)\nDivergence OR\nBranch\nTransition HOT\nStep 1\nTransition COOLED\n" ++
    "Branch\nTransition NOT HOT\nEndDivergence\nStep 2"

/-- As the conditions exclude each other, one branch is entered. -/
theorem Chart.mem_fired_openings_hotOrCold :
    ∃ c d, check hotOrCold = .ok (c, []) ∧ compile {} hotOrCold = .ok ⟨d, []⟩ ∧
      ∃ front bs span endSpan rest, c.elements = front ++ .divergence .or bs span endSpan :: rest ∧
        Branch.openings bs = [.transition 0, .transition 2] ∧
        let m := Machine.ofDiagram d 0.1
        let hot : Inputs := { time := 1, values := .ofList [("HOT", .bool true)] }
        let result := m.tick (m.start 0) hot []
        {x | x ∈ Branch.openings bs ∧ x ∈ result.fired}.Subsingleton ∧
          .transition 0 ∈ result.fired ∧ .transition 2 ∉ result.fired ∧
            .step 1 ∈ result.state.active := by
  obtain ⟨c, d, hcheck, hcompile, hruns⟩ := exists_drawn_of_any hotOrCold (fun c d =>
      let m := Machine.ofDiagram d 0.1
      let hot : Inputs := { time := 1, values := .ofList [("HOT", .bool true)] }
      (c.elements.map (·.kind) = [.step, .divergence .or, .step] ∧
        (c.elements.head?.bind Element.step?).map (·.number) = some 0 ∧
          (c.elements[1]?.map Element.branches).map Branch.openings =
            some [.transition 0, .transition 2]) ∧
        .step 0 ∈ (m.start 0).active ∧
          (d.transitions.map fun t =>
            (t.id, Expression.textHolds t.condition (m.conditionMoment (m.start 0) hot))) =
              [(.transition 0, true), (.transition 1, false), (.transition 2, false)] ∧
            d.successors (.transition 0) = [.step 1])
    (by decide +kernel)
  obtain ⟨⟨hkinds, hnumber, hopenings⟩, hactive, hholds, hsuccessors⟩ := of_decide_eq_true hruns
  obtain ⟨step, bs, span, endSpan, rest, heq, hnumber, hbs⟩ :=
    exists_choice hkinds hnumber hopenings
  obtain ⟨c', ws, hcheck', hchoices⟩ := mem_fired_openings_iff hcompile
  obtain ⟨rfl, -⟩ : c = c' ∧ [] = ws := by simpa [hcheck] using hcheck'
  refine ⟨c, d, hcheck, hcompile, [.step step], bs, span, endSpan, rest, heq, hbs, ?_⟩
  intro m hot result
  obtain ⟨step', hstep', -, -, hticks⟩ :=
    hchoices c.elements List.mem_cons_self [.step step] bs span endSpan rest heq
  obtain rfl : step = step' := by simpa using hstep'
  obtain ⟨hfired, hatMostOne, hentered⟩ := hticks 0.1 (m.start 0) hot []
  have hstart : .step step.number ∈ (m.start 0).active := hnumber ▸ hactive
  have hcleared : ∀ x, d.IsCleared 0.1 (m.start 0) hot x ↔ x = .transition 0 := by
    intro x
    have hx : d.IsCleared 0.1 (m.start 0) hot x ↔ (x, true) ∈ d.transitions.map fun t =>
        (t.id, Expression.textHolds t.condition (m.conditionMoment (m.start 0) hot)) := by
      simp [Diagram.IsCleared, hot, m]
    rw [hx, hholds]
    simp
  have hfirst : .transition 0 ∈ result.fired :=
    (hfired _ (by simp [hbs])).2 ⟨hstart, (hcleared _).2 rfl⟩
  refine ⟨hatMostOne.2 fun _ => ?_, hfirst, fun hsecond => ?_, ?_⟩
  · refine Set.subsingleton_of_subset_singleton (a := .transition 0) fun x hx => ?_
    exact (hcleared x).1 hx.2
  · have := (hcleared _).1 ((hfired _ (by simp [hbs])).1 hsecond).2
    cases this
  · exact hentered _ (by simp [hbs]) hfirst _ (by simp [hsuccessors])

/-- A chart with two branches that can both be entered. -/
def eitherOrBoth : String :=
  "Step 0 (Initial)\nDivergence OR\nBranch\nTransition a\nStep 1\nTransition c\nBranch\n" ++
    "Transition b\nStep 2\nTransition d\nEndDivergence\nStep 3"

/-- The chart is accepted without a warning. If both conditions hold, both openings fire and both
branches are entered. -/
theorem Chart.exists_openings_fired :
    ∃ c d, check eitherOrBoth = .ok (c, []) ∧ compile {} eitherOrBoth = .ok ⟨d, []⟩ ∧
      ∃ front bs span endSpan rest, c.elements = front ++ .divergence .or bs span endSpan :: rest ∧
        let m := Machine.ofDiagram d 0.1
        let both : Inputs := { time := 1, values := .ofList [("a", .bool true), ("b", .bool true)] }
        let result := m.tick (m.start 0) both []
        ¬ {x | x ∈ Branch.openings bs ∧ x ∈ result.fired}.Subsingleton ∧
          .step 1 ∈ result.state.active ∧ .step 2 ∈ result.state.active := by
  obtain ⟨c, d, hcheck, hcompile, hruns⟩ := exists_drawn_of_any eitherOrBoth (fun c d =>
      let m := Machine.ofDiagram d 0.1
      let both : Inputs := { time := 1, values := .ofList [("a", .bool true), ("b", .bool true)] }
      let result := m.tick (m.start 0) both []
      (c.elements.map (·.kind) = [.step, .divergence .or, .step] ∧
        (c.elements.head?.bind Element.step?).map (·.number) = some 0 ∧
          (c.elements[1]?.map Element.branches).map Branch.openings =
            some [.transition 0, .transition 2]) ∧
        result.fired = [.transition 0, .transition 2] ∧
          .step 1 ∈ result.state.active ∧ .step 2 ∈ result.state.active)
    (by decide +kernel)
  obtain ⟨⟨hkinds, hnumber, hopenings⟩, hfired, hactive⟩ := of_decide_eq_true hruns
  obtain ⟨step, bs, span, endSpan, rest, heq, -, hbs⟩ := exists_choice hkinds hnumber hopenings
  refine ⟨c, d, hcheck, hcompile, [.step step], bs, span, endSpan, rest, heq, ?_⟩
  intro m both result
  refine ⟨fun hone => ?_, hactive⟩
  have hsame : NodeId.transition 0 = .transition 2 :=
    hone (by simp [hbs, result, m, both, hfired]) (by simp [hbs, result, m, both, hfired])
  cases hsame

end SequentialChart
