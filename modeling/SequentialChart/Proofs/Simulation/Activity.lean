import Mathlib
import SequentialChart.Proofs.Simulation.Effects
import SequentialChart.Proofs.Simulation.Runs
import SequentialChart.Proofs.Simulation.Structured

/-!
# Charts that never stop

A chart without warnings that ends with a step or a jump never runs out of active steps: each of its
transitions has a step after it, so that what fires always leaves something active.

## Main definitions

* `Element.LeadsOn` — a sequence does not end in the open.

## Main statements

* `Chart.successors_ne_nil` — a step stands after every transition.
* `Machine.exists_active_tick`, `Machine.exists_active_stateAfter` — what a tick and what a run
  preserves.
* `Chart.exists_active_of_compile` — some step is always active.
-/

namespace SequentialChart

namespace Branch

/-- Branches of an AND divergence have first steps. -/
theorem firstSteps_ne_nil {bs : List Branch} (hne : bs ≠ [])
    (hbounds : ∀ b ∈ bs, Junction.and.Bounds b.elements) : firstSteps bs ≠ [] := by
  obtain ⟨b, hb⟩ := List.exists_mem_of_ne_nil bs hne
  obtain ⟨s, hs⟩ := (hbounds b hb).exists_first
  exact List.ne_nil_of_mem (mem_firstSteps_iff.2 ⟨b, hb, s, hs, rfl⟩)

end Branch

/-! ### The steps after transitions -/

namespace Element

/-- The sequence ends with a step or a jump, unless the steps `after` stand behind it. -/
def LeadsOn (after : List NodeId) (es : List Element) : Prop :=
  ∀ e ∈ es.getLast?, e.isStep ∨ e.isJump ∨ after ≠ []

variable {before after : List NodeId} {previous : Option Element} {e : Element} {es : List Element}

theorem LeadsOn.tail (h : LeadsOn after (e :: es)) : LeadsOn after es := by
  cases es with
  | nil => nofun
  | cons f es => rwa [LeadsOn, List.getLast?_cons_cons] at h

theorem ArePlaced.ne_nil_and_bounds {bs : List Branch} {span endSpan : Span}
    (h : ArePlaced true previous (.divergence .and bs span endSpan :: es)) :
    bs ≠ [] ∧ ∀ b ∈ bs, Junction.and.Bounds b.elements := by
  have htwo : 2 ≤ bs.length := h.2.1.2.2.2.1
  exact ⟨List.ne_nil_of_length_pos (by omega), fun b hb => (h.branch hb).1⟩

/-- A step stands after a transition or an OR divergence. -/
theorem stepsAhead_ne_nil (hplaced : ArePlaced true previous (e :: es))
    (hleads : LeadsOn after (e :: es)) (he : e.departs) : stepsAhead after es ≠ [] := by
  match es with
  | [] =>
    have hend : e.isStep ∨ e.isJump ∨ after ≠ [] := hleads e rfl
    cases e <;> simp_all [departs, isStep, isJump, stepsAhead]
  | .step _ :: _ | .jump _ :: _ => exact List.cons_ne_nil _ _
  | .divergence .and bs _ _ :: _ =>
    obtain ⟨hne, hbounds⟩ := hplaced.tail.ne_nil_and_bounds
    exact Branch.firstSteps_ne_nil hne hbounds
  | .transition _ :: _ | .divergence .or _ _ _ :: _ =>
    exact absurd he (slot_not_departs (hplaced.isSlot_of_departs rfl))

/-- A step stands after every transition of a sequence that leads on. -/
theorem successors_ne_nil (hplaced : ArePlaced true previous es) (hleads : LeadsOn after es)
    {n : Neighbourhood} (hn : n ∈ neighbourhoodsAll before after previous es) :
    n.successors ≠ [] := by
  induction es using sequence_induction generalizing before after previous with
  | nil => cases hn
  | step s es ih => exact ih hplaced.tail hleads.tail hn
  | transition t es ih =>
    rcases List.mem_cons.1 hn with rfl | hn
    · exact stepsAhead_ne_nil hplaced hleads rfl
    · exact ih hplaced.tail hleads.tail hn
  | jump j es ih => exact ih hplaced.tail hleads.tail hn
  | divergence junction bs span endSpan es hbs ih =>
    rcases List.mem_append.1 hn with hn | hn
    · cases junction with
      | and =>
        obtain ⟨b, hb, hn⟩ := Branch.mem_neighbourhoodsAll.1 hn
        obtain ⟨hbounds, hbranch⟩ := hplaced.branch hb
        refine hbs b hb hbranch (fun e he => .inl ?_) hn
        obtain ⟨s, hs⟩ := hbounds.exists_last
        obtain rfl : .step s = e := Option.some.inj (hs.symm.trans he)
        rfl
      | or =>
        obtain ⟨b, hb, hn⟩ := Branch.mem_neighbourhoodsAll.1 hn
        have hahead := stepsAhead_ne_nil hplaced hleads rfl
        rw [← hplaced.continuation_eq] at hahead
        exact hbs b hb (hplaced.branch hb).2 (fun _ _ => .inr (.inr hahead)) hn
    · exact ih hplaced.tail hleads.tail hn

end Element

/-- A step stands after every transition of a chart that ends with a step or a jump. -/
theorem Chart.successors_ne_nil {c : Chart} (hrules : c.FollowsRules true)
    (hends : c.elements.getLast?.any fun e => e.isStep || e.isJump) {n : Neighbourhood}
    (hn : n ∈ c.neighbourhoods) : n.successors ≠ [] := by
  refine Element.successors_ne_nil hrules.placed (fun e he => ?_) hn
  rw [Option.mem_def.1 he, Option.any_some, Bool.or_eq_true] at hends
  exact hends.imp_right .inl

/-! ### Runs -/

namespace Machine

variable {m : Machine} {s : State}

/-- What fires leaves something active if every transition enters a step. -/
theorem exists_active_tick (htargets : ∀ r ∈ m.rules, r.targets ≠ []) (hs : ∃ x, x ∈ s.active)
    (i : Inputs) (globals : List Action) : ∃ x, x ∈ (m.tick s i globals).state.active := by
  cases hfiring : m.firing s i with
  | nil =>
    obtain ⟨x, hx⟩ := hs
    refine ⟨x, mem_active_tick.2 ?_⟩
    rw [hfiring, moveAll_nil]
    exact hx
  | cons r rules =>
    have hr : r ∈ m.firing s i := by simp [hfiring]
    obtain ⟨x, hx⟩ := List.exists_mem_of_ne_nil _ (htargets r (mem_of_mem_firing hr))
    exact ⟨x, mem_active_tick_of_mem_targets hr hx⟩

theorem exists_active_stateAfter (htargets : ∀ r ∈ m.rules, r.targets ≠ [])
    (hinitial : m.steps.filter (·.isInitial) ≠ []) (time : Float) (run : List Stimulus) :
    ∃ x, x ∈ (m.stateAfter time run).active := by
  induction run using List.reverseRecOn with
  | nil =>
    obtain ⟨step, hstep⟩ := List.exists_mem_of_ne_nil _ hinitial
    exact ⟨step.id, mem_active_start.2 (List.mem_map_of_mem hstep)⟩
  | append_singleton run k ih =>
    rw [stateAfter_concat]
    exact exists_active_tick htargets ih k.inputs k.globals

end Machine

/-- Some step of a chart without warnings that ends with a step or a jump is active in every state
of every run. -/
theorem Chart.exists_active_of_compile {config : Config} {source : String} {d : Diagram Float32}
    {c : Chart} {ws : List Diagnostic} (hcompile : Chart.compile config source = .ok ⟨d, []⟩)
    (hcheck : Chart.check source = .ok (c, ws))
    (hends : c.elements.getLast?.any fun e => e.isStep || e.isJump) (pulse time : Float)
    (run : List Stimulus) : ∃ x, x ∈ ((Machine.ofDiagram d pulse).stateAfter time run).active := by
  obtain ⟨hrules, hruns⟩ := Chart.runs_of_compile hcompile hcheck pulse
  refine Machine.exists_active_stateAfter (fun r hr => ?_) ?_ time run
  · have hn : r.neighbourhood ∈ c.neighbourhoods := by
      rw [← hruns.rules]
      exact List.mem_map_of_mem hr
    exact Chart.successors_ne_nil hrules hends hn
  · obtain ⟨s, hs, hkind⟩ := List.any_eq_true.1 (hrules.initial rfl)
    have hinitial : c.steps.filter (·.kind = .initial) ≠ [] :=
      List.ne_nil_of_mem (List.mem_filter.2 ⟨hs, hkind⟩)
    intro hnil
    have hmap := hruns.initial
    rw [hnil, List.map_nil, eq_comm, List.map_eq_nil_iff] at hmap
    exact hinitial hmap

/-- A chart that stays in its first step or goes on to the next one. -/
def stayOrGo : String :=
  "Step 0 (Initial)\nDivergence OR\nBranch\nTransition a\nJump 0\nBranch\nTransition b\n" ++
    "EndDivergence\nStep 1\nTransition c\nJump 0"

/-- Some step is active though both transitions behind the first step fire in one tick, and the last
one leaves the second step alone. -/
theorem Chart.exists_active_stayOrGo :
    ∃ c d, Chart.compile {} stayOrGo = .ok ⟨d, []⟩ ∧ Chart.check stayOrGo = .ok (c, []) ∧
      c.elements.getLast?.any (fun e => e.isStep || e.isJump) ∧
        let m := Machine.ofDiagram d 0.1
        let both : Stimulus := ⟨{ time := 1, triggers := [.transition 0, .transition 1] }, []⟩
        let back : Stimulus := ⟨{ time := 2, triggers := [.transition 2] }, []⟩
        (m.tick (m.start 0) both.inputs both.globals).fired = [.transition 0, .transition 1] ∧
          ∀ run ∈ [[both], [both, back]], ∃ x, x ∈ (m.stateAfter 0 run).active := by
  obtain ⟨d, ws, hcompile, hfired⟩ := Chart.exists_compile_of_any stayOrGo (fun d =>
      let m := Machine.ofDiagram d 0.1
      let both : Inputs := { time := 1, triggers := [.transition 0, .transition 1] }
      (m.tick (m.start 0) both []).fired = [.transition 0, .transition 1])
    (by decide +kernel)
  obtain ⟨c, hall, -⟩ := Chart.compile_eq_ok_iff.1 hcompile
  have hchecks : (Chart.checkAll stayOrGo).toOption.any fun r =>
      r.2.isEmpty && r.1.elements.getLast?.any fun e => e.isStep || e.isJump := by
    decide +kernel
  simp only [hall, Except.toOption, Option.any_some, Bool.and_eq_true, List.isEmpty_iff] at hchecks
  obtain ⟨rfl, hends⟩ := hchecks
  obtain ⟨ws, hcheck, hnil⟩ := Chart.checkAll_eq_ok_iff.1 hall
  obtain ⟨rfl, -⟩ := List.append_eq_nil_iff.1 hnil.symm
  exact ⟨c, d, hcompile, hcheck, hends, of_decide_eq_true hfired, fun run _ =>
    Chart.exists_active_of_compile hcompile hcheck hends 0.1 0 run⟩

end SequentialChart
