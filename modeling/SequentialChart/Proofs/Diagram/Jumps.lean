import Mathlib
import SequentialChart.Proofs.Diagram.Outline

/-!
# Jumps

Jumps are drawn when everything else has been placed. The only thing that keeps a chart from being
drawn is a jump to a step that the chart does not have, and even that does not matter if there is
nothing in the chart but jumps: lines are drawn around what has been placed, and where nothing has,
they are left out together with the search for their targets.

## Main statements

* `Drawing.routeJumpsFrom_eq_error_iff` — the first jump without a target is the one reported.
* `Element.isSome_source_placeAll` — where jumps only end sequences, something leads to each.
* `Chart.draw_eq_error_iff` — which charts cannot be drawn.
* `Chart.exists_draw_of_no_target` — a chart of a single jump that leads nowhere is drawn.
* `Chart.exists_jumps_of_draw` — the lines of jumps stand behind all others.
-/

namespace SequentialChart

/-! ### The targets of jumps -/

namespace Drawing

variable {α : Type} {d : Drawing α} {n : Nat}

theorem target?_eq_none_iff : d.target? n = none ↔ n ∉ d.steps.map (·.number) := by
  simp only [target?, List.find?_eq_none, List.mem_reverse, decide_eq_true_eq, List.mem_map,
    not_exists, not_and]

variable [Length α]

/-- Lines of jumps fail at the first jump whose target has not been placed. -/
theorem routeJumpsFrom_eq_error_iff (margin lane : α) {js : List (OpenJump α)}
    {reason : DrawError} : d.routeJumpsFrom margin lane js = .error reason ↔
      ∃ n, (js.map (·.target)).find? (· ∉ d.steps.map (·.number)) = some n ∧
        reason = .missingTarget n := by
  induction js generalizing lane with
  | nil => simp [routeJumpsFrom]
  | cons j js ih =>
    rw [List.map_cons, routeJumpsFrom]
    cases htarget : d.target? j.target with
    | none =>
      have hmissing := target?_eq_none_iff.1 htarget
      rw [List.find?_cons_of_pos (by simpa using hmissing)]
      simp [eq_comm]
    | some target =>
      have hfound : j.target ∈ d.steps.map (·.number) := by
        by_contra hmissing
        simp [target?_eq_none_iff.2 hmissing] at htarget
      rw [List.find?_cons_of_neg (by simpa using hfound)]
      cases j.source with
      | none => exact ih lane
      | some source =>
        rw [← ih (lane + Length.half margin)]
        cases d.routeJumpsFrom margin (lane + Length.half margin) js <;>
          simp [bind, Except.bind, pure, Except.pure]

theorem extent?_eq_none_iff : d.extent? = none ↔ d.nodeIds = [] := by
  simp [extent?, nodeIds]

theorem routeJumps_eq_error_iff (margin : α) {reason : DrawError} :
    d.routeJumps margin = .error reason ↔ d.nodeIds ≠ [] ∧
      ∃ n, (d.jumps.map (·.target)).find? (· ∉ d.steps.map (·.number)) = some n ∧
        reason = .missingTarget n := by
  unfold routeJumps
  cases h : d.extent? with
  | none => simp [extent?_eq_none_iff.1 h]
  | some extent =>
    have hne : d.nodeIds ≠ [] := fun hnil => by simp [extent?_eq_none_iff.2 hnil] at h
    simp [hne, routeJumpsFrom_eq_error_iff]

end Drawing

/-! ### What leads to jumps -/

section Sources

variable {α : Type} [Length α] {s : Spacing α}

theorem Branch.isSome_source_placeAll {column : α → Column α}
    (hcolumn : ∀ x, (column x).previous.isSome) {bs : List Branch}
    (h : ∀ b ∈ bs, ∀ (c : Column α) (gate : Nat), c.previous.isSome →
      ∀ j ∈ (Element.placeAll s c gate b.elements).1.jumps, j.source.isSome)
    (gate : Nat) (centers : List α) :
    ∀ j ∈ (placeAll s column gate bs centers).1.jumps, j.source.isSome := by
  induction bs generalizing gate centers with
  | nil => exact nofun
  | cons b bs ih =>
    cases centers with
    | nil => exact nofun
    | cons x centers =>
      obtain ⟨elements, span⟩ := b
      exact List.forall_mem_append.2 ⟨h _ List.mem_cons_self _ _ (hcolumn x),
        ih (fun b hb => h b (List.mem_cons_of_mem _ hb)) _ _⟩

/-- Something leads to every jump of a sequence, if something leads to the sequence or it begins with
a step. -/
theorem Element.isSome_source_placeAll {es : List Element} {strict : Bool}
    {previous : Option Element} (h : ArePlaced strict previous es) {c : Column α}
    (hc : ∀ e ∈ es.head?, e.isStep ∨ c.previous.isSome) (gate : Nat) :
    ∀ j ∈ (placeAll s c gate es).1.jumps, j.source.isSome := by
  have hcons : ∀ {e : Element} {es : List Element} {c : Column α} {gate : Nat},
      (∀ j ∈ (e.place s c gate es.head?).1.jumps, j.source.isSome) →
      (∀ c gate, c.previous.isSome → ∀ j ∈ (placeAll s c gate es).1.jumps, j.source.isSome) →
      (e.place s c gate es.head?).2.previous.isSome →
      ∀ j ∈ (placeAll s c gate (e :: es)).1.jumps, j.source.isSome :=
    fun he hes hnext => List.forall_mem_append.2 ⟨he, hes _ _ hnext⟩
  induction es using sequence_induction generalizing c gate previous with
  | nil => exact nofun
  | step step es ih =>
    exact hcons nofun (fun _ gate hc => ih h.tail (fun _ _ => .inr hc) gate) rfl
  | transition t es ih =>
    exact hcons nofun (fun _ gate hc => ih h.tail (fun _ _ => .inr hc) gate) rfl
  | jump j es ih =>
    have hsource : c.previous.isSome := (hc _ rfl).resolve_left Bool.false_ne_true
    cases es with
    | nil => exact List.forall_mem_singleton.2 hsource
    | cons e es => exact absurd rfl h.tail.1
  | divergence junction bs span endSpan es hbs ih =>
    refine hcons ?_ (fun _ gate hc => ih h.tail (fun _ _ => .inr hc) gate) rfl
    simp only [place, Drawing.jumps_append, List.nil_append, List.append_nil]
    refine Branch.isSome_source_placeAll (fun x => ?_) (fun b hb c gate hc =>
      hbs b hb (h.branch hb).2 (fun _ _ => .inr hc) gate) _ _
    cases junction <;> rfl

omit [Length α] in
theorem OpenJump.map_snd_ends? {js : List (OpenJump α)} (h : ∀ j ∈ js, j.source.isSome) :
    (js.filterMap (·.ends?)).map Prod.snd = js.map fun j => .step j.target := by
  induction js with
  | nil => rfl
  | cons j js ih =>
    obtain ⟨source, hsource⟩ := Option.isSome_iff_exists.1 (h j List.mem_cons_self)
    have hends : j.ends? = some (source.id, .step j.target) := by simp [ends?, hsource]
    rw [List.filterMap_cons_some hends, List.map_cons, List.map_cons,
      ih fun j hj => h j (List.mem_cons_of_mem _ hj)]

end Sources

/-! ### What is placed -/

namespace Element

theorem nodes_outline_eq_nil_iff (e : Element) (above : List NodeId) (gate : Nat) :
    (e.outline above gate).nodes = [] ↔ e.isJump := by
  cases e <;> simp [outline, Outline.node, Outline.jump, Outline.stack, Outline.bar, isJump]

/-- Only jumps are no nodes. -/
theorem nodes_outlineAll_eq_nil_iff (es : List Element) (above : List NodeId) (gate : Nat) :
    (outlineAll above gate es).nodes = [] ↔ ∀ e ∈ es, e.isJump := by
  induction es generalizing above gate with
  | nil => simp [outlineAll]
  | cons e es ih =>
    rw [outlineAll, Outline.stack, List.append_eq_nil_iff, nodes_outline_eq_nil_iff, ih,
      List.forall_mem_cons]

end Element

namespace Chart

variable {α : Type} [Length α]

theorem nodeIds_drawing_eq_nil_iff (c : Chart) (s : Spacing α) :
    (c.drawing s).nodeIds = [] ↔ ∀ e ∈ c.elements, e.isJump := by
  rw [← Element.nodes_outlineAll_eq_nil_iff c.elements [] 0]
  exact ⟨fun h => ((c.realizes_drawing s).nodes.symm.trans (.of_eq h)).eq_nil,
    fun h => ((c.realizes_drawing s).nodes.trans (.of_eq h)).eq_nil⟩

/-- What is reported of a chart that cannot be drawn is its first jump without a target. -/
theorem draw_eq_error_iff (c : Chart) (s : Spacing α) {reason : DrawError} :
    c.draw s = .error reason ↔ (∃ e ∈ c.elements, ¬ e.isJump) ∧
      ∃ n, (Element.jumpTargets c.walk).find? (· ∉ Element.stepNumbers c.walk) = some n ∧
        reason = .missingTarget n := by
  have hdrawing := c.realizes_drawing s
  have hroute : c.draw s = .error reason ↔
      (c.drawing s).routeJumps s.jumpMargin = .error reason := by
    simp only [draw]
    cases (c.drawing s).routeJumps s.jumpMargin <;> simp [bind, Except.bind, pure, Except.pure]
  rw [hroute, Drawing.routeJumps_eq_error_iff, hdrawing.jumps, hdrawing.stepNumbers, ne_eq,
    nodeIds_drawing_eq_nil_iff]
  simp

/-- A chart cannot be drawn exactly if it has a jump to a step that it does not have, and is not made
of jumps alone. -/
theorem exists_draw_eq_error_iff (c : Chart) (s : Spacing α) :
    (∃ reason, c.draw s = .error reason) ↔
      (∃ e ∈ c.elements, ¬ e.isJump) ∧ ∃ j ∈ c.jumps, ∀ step ∈ c.steps, step.number ≠ j.target := by
  have hmissing : (∃ n, (Element.jumpTargets c.walk).find? (· ∉ Element.stepNumbers c.walk) =
      some n) ↔ ∃ j ∈ c.jumps, ∀ step ∈ c.steps, step.number ≠ j.target := by
    rw [← Option.isSome_iff_exists, List.find?_isSome]
    change (∃ n ∈ c.jumps.map (·.target), decide (n ∉ c.steps.map (·.number)) = true) ↔ _
    simp [List.mem_map]
  simp only [draw_eq_error_iff, ← hmissing]
  constructor
  · rintro ⟨reason, hplaced, n, hn, -⟩
    exact ⟨hplaced, n, hn⟩
  · rintro ⟨hplaced, n, hn⟩
    exact ⟨.missingTarget n, hplaced, n, hn, rfl⟩

/-- A chart of a single jump is drawn, though there is no step that the jump could lead to. -/
theorem exists_draw_of_no_target :
    ∃ c, parse "Jump 5" = .ok (c, []) ∧
      (∃ j ∈ c.jumps, ∀ step ∈ c.steps, step.number ≠ j.target) ∧
      ∃ d : Diagram Float32, c.draw .default = .ok d := by
  have hparse : (parse "Jump 5").toOption.any fun r => r.2.isEmpty && r.1.steps.isEmpty &&
      !r.1.jumps.isEmpty && (r.1.draw (Spacing.default : Spacing Float32)).isOk := by
    decide +kernel
  match h : parse "Jump 5" with
  | .error ds => simp [h, Except.toOption] at hparse
  | .ok (c, ws) =>
    simp only [h, Except.toOption, Option.any_some, Bool.and_eq_true, List.isEmpty_iff] at hparse
    obtain ⟨⟨⟨rfl, hsteps⟩, hjumps⟩, hdraw⟩ := hparse
    obtain ⟨j, hj⟩ := List.exists_mem_of_ne_nil c.jumps (by simpa using hjumps)
    refine ⟨c, rfl, ⟨j, hj, by simp [hsteps]⟩, ?_⟩
    cases hd : c.draw (Spacing.default : Spacing Float32) with
    | error reason => simp [hd, Except.isOk, Except.toBool] at hdraw
    | ok d => exact ⟨d, rfl⟩

/-- The connections of the jumps of a chart that follows the rules stand behind all others. -/
theorem exists_jumps_of_draw {c : Chart} {s : Spacing α} {d : Diagram α} (h : c.draw s = .ok d)
    (hrules : c.FollowsRules false) :
    ∃ jumps, d.connections = (c.drawing s).connections ++ jumps ∧
      jumps.map (·.target) = c.jumps.map fun j => .step j.target := by
  have hdrawing := c.realizes_drawing s
  obtain ⟨lines, hlines, hends⟩ := Drawing.exists_routeJumps (d := c.drawing s) s.jumpMargin
    fun j hj => by
      rw [hdrawing.stepNumbers]
      exact hrules.jumps.mem (hdrawing.jumps ▸ List.mem_map_of_mem hj)
  simp only [draw, hlines, bind, Except.bind, pure, Except.pure, Except.ok.injEq] at h
  have hsources : ∀ j ∈ (c.drawing s).jumps, j.source.isSome :=
    Element.isSome_source_placeAll hrules.placed (fun e he => .inl (hrules.starts e he)) 0
  refine ⟨lines, by rw [← h], ?_⟩
  calc lines.map (·.target)
      = (lines.map (·.ends)).map Prod.snd := by simp [Connection.ends, Function.comp_def]
    _ = ((c.drawing s).jumps.map (·.target)).map .step := by
        rw [hends, OpenJump.map_snd_ends? hsources, List.map_map, Function.comp_def]
    _ = c.jumps.map fun j => .step j.target := by
        rw [hdrawing.jumps]
        exact List.map_map

end Chart

end SequentialChart
