import Mathlib
import SequentialChart.Compile
import SequentialChart.Proofs.Chart.Structured
import SequentialChart.Proofs.Chart.Surroundings
import SequentialChart.Proofs.Diagram.Neighbourhoods
import SequentialChart.Proofs.Simulation.Firing

/-!
# Runs of structured charts

A chart without warnings that begins with its only initial step, and whose jumps stay in their
regions, is always in one of its slots or in none: it starts in the initial step, and transitions
that fire together might as well fire one after the other.

## Main definitions

* `Machine.Runs` — the machine belongs to the chart.
* `Chart.StartsOnce` — the chart begins with its only initial step.

## Main statements

* `Machine.Runs.isSound_tick`, `Machine.Runs.isSound` — what a tick and what a run preserves.
* `Machine.Runs.not_mem_of_join` — a transition empties the AND divergence that it follows.
* `Chart.isStructured_of_reaches` — the active steps always go together.
-/

namespace SequentialChart

/-- The rule as a transition with the steps around it. -/
def Rule.neighbourhood (r : Rule) : Neighbourhood := ⟨r.id, r.sources, r.targets⟩

/-- The machine belongs to the chart: it has the initial steps and the transitions of the chart. -/
structure Machine.Runs (m : Machine) (c : Chart) : Prop where
  initial : (m.steps.filter (·.isInitial)).map (·.number) =
    (c.steps.filter (·.kind = .initial)).map (·.number)
  rules : m.rules.map (·.neighbourhood) = c.neighbourhoods

/-- The machine of a diagram runs the chart that the diagram shows. -/
theorem Diagram.Shows.runs {α : Type} {d : Diagram α} {c : Chart} (h : d.Shows c)
    (hrules : c.FollowsRules false) (htransitions : (Element.transitionNumbers c.walk).Nodup)
    (pulse : Float) : (Machine.ofDiagram d pulse).Runs c where
  initial := by
    rw [← h.initialSteps, Machine.ofDiagram, Diagram.initialSteps, List.filter_map, List.map_map]
    rfl
  rules := by
    rw [← h.map_neighbourhood hrules htransitions, Machine.ofDiagram, List.map_map]
    rfl

namespace Chart

/-- The chart begins with an initial step and has no other one. -/
def StartsOnce (c : Chart) : Prop :=
  (c.elements.head?.bind Element.step?).any (·.kind = .initial) ∧
    c.steps.countP (·.kind = .initial) = 1

instance (c : Chart) : Decidable c.StartsOnce := inferInstanceAs (Decidable (_ ∧ _))

variable {c : Chart}

theorem StartsOnce.exists_first (h : c.StartsOnce) :
    ∃ s rest, c.elements = .step s :: rest ∧ c.steps.filter (·.kind = .initial) = [s] := by
  obtain ⟨hfirst, hcount⟩ := h
  match hes : c.elements with
  | [] | .transition _ :: _ | .jump _ :: _ | .divergence _ _ _ _ :: _ =>
    simp [hes, Element.step?] at hfirst
  | .step s :: rest =>
    refine ⟨s, rest, rfl, ?_⟩
    have hinitial : s.kind = .initial := by simpa [hes, Element.step?] using hfirst
    have hsteps : c.steps = s :: (Element.walkAll rest).filterMap Element.step? := by
      rw [steps, walk, hes]
      rfl
    rw [List.countP_eq_length_filter] at hcount
    rw [hsteps] at hcount ⊢
    simpa [hinitial] using hcount

end Chart

namespace Machine.Runs

variable {m : Machine} {c : Chart} {s : State}

theorem isSound_start (h : m.Runs c) (hrules : c.FollowsRules true) (hstart : c.StartsOnce)
    (time : Float) : c.IsSound (m.start time).active := by
  obtain ⟨first, rest, hes, hinitial⟩ := hstart.exists_first
  have hids : (m.steps.filter (·.isInitial)).map (·.id) = [.step first.number] := by
    have := congrArg (List.map NodeId.step) h.initial
    rw [hinitial, List.map_map] at this
    exact this
  have hactive : ∀ x, x ∈ (m.start time).active ↔ x = .step first.number := by
    intro x
    rw [mem_active_start, hids, List.mem_singleton]
  have hslot : Element.step first ∈ Element.slots c.elements := by simp [hes]
  refine .inl ⟨.step first, (Chart.isRegion hrules).isOnly hslot fun x _ hx => ?_, .step ?_⟩
  · simpa using (hactive x).1 hx
  · exact (hactive _).2 rfl

section Rules

variable (h : m.Runs c) (hrules : c.FollowsRules true) (hjumps : c.JumpsStay)
include h hrules hjumps

/-- The transitions that fire in a tick can fire together. -/
theorem fireTogether {i : Inputs} (hapart : m.FiresApart s i) :
    FireTogether c.elements {x | x ∈ s.active} (m.firing s i) where
  transfers r hr := by
    have hn : r.neighbourhood ∈ c.neighbourhoods := by
      rw [← h.rules]
      exact List.mem_map_of_mem (mem_of_mem_firing hr)
    exact Chart.transfers hrules hjumps hn
  enabled r hr x hx := mem_active_of_mem_firing hr hx
  apart := hapart

/-- A chart in one of its slots or in none is so after a tick. -/
theorem isSound_tick (hs : c.IsSound s.active) {i : Inputs} (hapart : m.FiresApart s i)
    (globals : List Action) : c.IsSound (m.tick s i globals).state.active := by
  have hset : {x | x ∈ (m.tick s i globals).state.active} =
      moveAll {x | x ∈ s.active} (m.firing s i) := by
    ext x
    exact mem_active_tick
  rw [Chart.IsSound, hset]
  exact (h.fireTogether hrules hjumps hapart).isSound (Chart.isRegion hrules) hs

/-- Along all runs, a chart is in one of its slots or in none. -/
theorem isSound (hstart : c.StartsOnce) (hs : m.Reaches s) : c.IsSound s.active := by
  induction hs with
  | start time => exact h.isSound_start hrules hstart time
  | tick i globals hs hapart ih => exact h.isSound_tick hrules hjumps ih hapart globals

/-- When the transition that follows an AND divergence fires, no step of the divergence stays
active. -/
theorem not_mem_of_join (htransitions : (Element.transitionNumbers c.walk).Nodup)
    (hs : c.IsSound s.active) {i : Inputs} (hapart : m.FiresApart s i) {bs : List Branch}
    {t : Transition} (ht : (bs, t) ∈ c.joins) {globals : List Action}
    (hfired : .transition t.number ∈ (m.tick s i globals).fired) :
    ∀ x ∈ bs.flatMap Branch.steps, x ∉ (m.tick s i globals).state.active := by
  intro x hx hactive
  obtain ⟨r, hr, hid⟩ := List.mem_map.1 hfired
  obtain ⟨n, hn, htransition, hempty⟩ := Chart.exists_join hrules hjumps ht
  -- no two transitions have one number, so the rule is the one that stands behind the divergence
  have hnodup : (c.neighbourhoods.map (·.transition)).Nodup := by
    rw [Chart.map_transition_neighbourhoods]
    exact htransitions.map fun _ _ => NodeId.transition.inj
  have hmem : r.neighbourhood ∈ c.neighbourhoods := by
    rw [← h.rules]
    exact List.mem_map_of_mem (mem_of_mem_firing hr)
  obtain rfl : r.neighbourhood = n :=
    List.inj_on_of_nodup_map hnodup hmem hn (hid.trans htransition.symm)
  obtain ⟨B, hB, hsources, hlast⟩ :=
    (h.fireTogether hrules hjumps hapart).exists_last (Chart.isRegion hrules) hs hr
  rw [mem_active_tick, hlast] at hactive
  exact hempty B hB hsources x hx hactive

end Rules

end Machine.Runs

/-! ### Sources without warnings -/

theorem Chart.check_of_compile {config : Config} {source : String} {d : Diagram Float32}
    (h : Chart.compile config source = .ok ⟨d, []⟩) :
    ∃ c, Chart.check source = .ok (c, []) ∧ c.draw config.spacing = .ok d := by
  obtain ⟨c, hcheck, hdraw⟩ := Chart.compile_eq_ok_iff.1 h
  obtain ⟨warnings, hcheck, hnil⟩ := Chart.checkAll_eq_ok_iff.1 hcheck
  obtain ⟨rfl, -⟩ := List.append_eq_nil_iff.1 hnil.symm
  exact ⟨c, hcheck, hdraw⟩

/-- The machine of a source without warnings runs its chart. -/
theorem Chart.runs_of_compile {config : Config} {source : String} {d : Diagram Float32} {c : Chart}
    {ws : List Diagnostic} (hcompile : Chart.compile config source = .ok ⟨d, []⟩)
    (hcheck : Chart.check source = .ok (c, ws)) (pulse : Float) :
    c.FollowsRules true ∧ (Machine.ofDiagram d pulse).Runs c := by
  obtain ⟨c', hcheck', hdraw⟩ := Chart.check_of_compile hcompile
  obtain ⟨rfl, rfl⟩ : c' = c ∧ [] = ws := by simpa [hcheck'] using hcheck
  obtain ⟨d', hdraw', hshows⟩ := Chart.exists_draw_of_check hcheck config.spacing
  obtain rfl : d' = d := by simpa [hdraw'] using hdraw
  exact ⟨Chart.followsRules_of_check_nil hcheck,
    hshows.runs (Chart.followsRules_of_check hcheck) (Chart.nodup_transitions_of_check hcheck) pulse⟩

/-- In every state of a run, the active steps of a chart without warnings go together, and no step
of an AND divergence is active after the transition that follows it has fired. -/
theorem Chart.isStructured_of_reaches {config : Config} {source : String} {d : Diagram Float32}
    {c : Chart} {ws : List Diagnostic} (hcompile : Chart.compile config source = .ok ⟨d, []⟩)
    (hcheck : Chart.check source = .ok (c, ws)) (hstart : c.StartsOnce) (hjumps : c.JumpsStay)
    {pulse : Float} {s : State} (hs : (Machine.ofDiagram d pulse).Reaches s) :
    c.IsStructured s.active ∧
      ∀ i globals, (Machine.ofDiagram d pulse).FiresApart s i → ∀ bs t, (bs, t) ∈ c.joins →
        .transition t.number ∈ ((Machine.ofDiagram d pulse).tick s i globals).fired →
          ∀ b ∈ bs, ¬ b.isOccupied ((Machine.ofDiagram d pulse).tick s i globals).state.active := by
  obtain ⟨c', hcheck', hdraw⟩ := Chart.check_of_compile hcompile
  obtain ⟨rfl, rfl⟩ : c' = c ∧ [] = ws := by simpa [hcheck'] using hcheck
  have hrules := Chart.followsRules_of_check_nil hcheck
  have htransitions := Chart.nodup_transitions_of_check hcheck
  obtain ⟨d', hdraw', hshows⟩ := Chart.exists_draw_of_check hcheck config.spacing
  obtain rfl : d' = d := by simpa [hdraw'] using hdraw
  have hruns : (Machine.ofDiagram d' pulse).Runs c' :=
    hshows.runs (Chart.followsRules_of_check hcheck) htransitions pulse
  have hsound := hruns.isSound hrules hjumps hstart hs
  refine ⟨hsound.isStructured, fun i globals hapart bs t ht hfired b hb hoccupied => ?_⟩
  simp only [Branch.isOccupied, List.any_eq_true, decide_eq_true_eq] at hoccupied
  obtain ⟨x, hx, hactive⟩ := hoccupied
  exact hruns.not_mem_of_join hrules hjumps htransitions hsound hapart ht hfired x
    (List.mem_flatMap.2 ⟨b, hb, hx⟩) hactive

/-- A chart with two branches that run side by side. -/
def sideBySide : String :=
  "Step 0 (Initial)\nTransition a\nDivergence AND\nBranch\nStep 1\nBranch\nStep 2\n" ++
    "EndDivergence\nTransition b\nJump 0"

theorem checkAll_sideBySide : ∃ c, Chart.checkAll sideBySide = .ok (c, []) ∧ c.StartsOnce ∧
    c.JumpsStay ∧ (c.steps.filter (·.kind = .initial)).map (·.number) = [0] ∧
      c.joins.map (·.2.number) = [1] ∧
        c.neighbourhoods = [⟨.transition 0, [.step 0], [.step 1, .step 2]⟩,
          ⟨.transition 1, [.step 1, .step 2], [.step 0]⟩] := by
  have hcheck : (Chart.checkAll sideBySide).toOption.any (fun r => r.2.isEmpty ∧ r.1.StartsOnce ∧
      r.1.JumpsStay ∧ (r.1.steps.filter (·.kind = .initial)).map (·.number) = [0] ∧
        r.1.joins.map (·.2.number) = [1] ∧
          r.1.neighbourhoods = [⟨.transition 0, [.step 0], [.step 1, .step 2]⟩,
            ⟨.transition 1, [.step 1, .step 2], [.step 0]⟩]) := by
    decide +kernel
  match h : Chart.checkAll sideBySide with
  | .error ds => simp [h, Except.toOption] at hcheck
  | .ok (c, ws) =>
    simp only [h, Except.toOption, Option.any_some, decide_eq_true_eq, List.isEmpty_iff] at hcheck
    obtain ⟨rfl, hrest⟩ := hcheck
    exact ⟨c, rfl, hrest⟩

/-- The first steps of both branches go together, one of them alone does not, nor does one with the
step before. -/
example : ((Chart.check sideBySide).toOption.map fun r =>
    [[.step 1, .step 2], [.step 1], [.step 0, .step 1, .step 2]].map fun active =>
      decide (r.1.IsStructured (.ofList active))) = some [true, false, false] := by
  decide +kernel

/-- Both branches are entered, and left together. -/
theorem Chart.isStructured_sideBySide : ∃ c d, Chart.compile {} sideBySide = .ok ⟨d, []⟩ ∧
    Chart.check sideBySide = .ok (c, []) ∧ c.StartsOnce ∧ c.JumpsStay ∧
      ∃ s, (Machine.ofDiagram d 0).Reaches s ∧ .step 1 ∈ s.active ∧ c.IsStructured s.active ∧
        ∃ i bs t, (Machine.ofDiagram d 0).FiresApart s i ∧ (bs, t) ∈ c.joins ∧
          .transition t.number ∈ ((Machine.ofDiagram d 0).tick s i []).fired ∧
            ∀ b ∈ bs, ¬ b.isOccupied ((Machine.ofDiagram d 0).tick s i []).state.active := by
  obtain ⟨c, hall, hstart, hjumps, hinitial, hjoins, hneighbourhoods⟩ := checkAll_sideBySide
  obtain ⟨ws, hcheck, hnil⟩ := Chart.checkAll_eq_ok_iff.1 hall
  obtain ⟨rfl, -⟩ := List.append_eq_nil_iff.1 hnil.symm
  obtain ⟨d, hdraw, hshows⟩ := Chart.exists_draw_of_check hcheck ({} : Config).spacing
  have hcompile : Chart.compile {} sideBySide = .ok ⟨d, []⟩ :=
    Chart.compile_eq_ok_iff.2 ⟨c, hall, hdraw⟩
  have hruns : (Machine.ofDiagram d 0).Runs c :=
    hshows.runs (Chart.followsRules_of_check hcheck) (Chart.nodup_transitions_of_check hcheck) 0
  obtain ⟨r₀, r₁, hrules, h₀, h₁⟩ : ∃ r₀ r₁, (Machine.ofDiagram d 0).rules = [r₀, r₁] ∧
      r₀.neighbourhood = ⟨.transition 0, [.step 0], [.step 1, .step 2]⟩ ∧
        r₁.neighbourhood = ⟨.transition 1, [.step 1, .step 2], [.step 0]⟩ := by
    have hmap := hruns.rules.trans hneighbourhoods
    simpa [List.map_eq_cons_iff] using hmap
  simp only [Rule.neighbourhood, Neighbourhood.mk.injEq] at h₀ h₁
  have hapart : ∀ s i, (Machine.ofDiagram d 0).FiresApart s i := by
    intro s i
    refine List.Pairwise.sublist List.filter_sublist ?_
    rw [hrules]
    simp [h₀, h₁]
  obtain ⟨⟨bs, t⟩, hjoins, ht⟩ : ∃ p, c.joins = [p] ∧ p.2.number = 1 := by
    simpa [List.map_eq_cons_iff] using hjoins
  -- the initial step is left for the first steps of both branches
  have hfirst : .step 0 ∈ ((Machine.ofDiagram d 0).start 0).active := by
    have hids := congrArg (List.map NodeId.step) (hruns.initial.trans hinitial)
    rw [List.map_map] at hids
    rw [Machine.mem_active_start]
    exact hids ▸ List.mem_singleton_self _
  let split : Inputs := { time := 1, triggers := [.transition 0] }
  let s := ((Machine.ofDiagram d 0).tick ((Machine.ofDiagram d 0).start 0) split []).state
  have hsplit : r₀ ∈ (Machine.ofDiagram d 0).firing ((Machine.ofDiagram d 0).start 0) split :=
    Machine.mem_firing_of_trigger (by simp [hrules]) (by simp [h₀]) (by simpa [h₀] using hfirst)
      (by simp [h₀, split])
  have hreaches : (Machine.ofDiagram d 0).Reaches s := .tick split [] (.start 0) (hapart _ _)
  have hactive : ∀ x ∈ r₀.targets, x ∈ s.active := by
    intro x hx
    exact Machine.mem_active_tick_of_mem_targets hsplit hx
  -- both branches are left together
  let join : Inputs := { time := 2, triggers := [.transition 1] }
  have hjoin : r₁ ∈ (Machine.ofDiagram d 0).firing s join :=
    Machine.mem_firing_of_trigger (by simp [hrules]) (by simp [h₁])
      (by simpa [h₀, h₁] using hactive) (by simp [h₁, join])
  have hfired : .transition t.number ∈ ((Machine.ofDiagram d 0).tick s join []).fired := by
    rw [ht, ← h₁.1]
    exact List.mem_map_of_mem hjoin
  obtain ⟨hstructured, hempty⟩ :=
    Chart.isStructured_of_reaches hcompile hcheck hstart hjumps hreaches
  have hmem : (bs, t) ∈ c.joins := by simp [hjoins]
  exact ⟨c, d, hcompile, hcheck, hstart, hjumps, s, hreaches, hactive _ (by simp [h₀]),
    hstructured, join, bs, t, hapart s join, hmem, hfired,
    hempty join [] (hapart s join) bs t hmem hfired⟩

end SequentialChart
