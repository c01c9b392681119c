import Mathlib
import SequentialChart.Proofs.Diagram.Outline

/-!
# Bars

A divergence is drawn between two bars: its branches begin at the first one and end at the second
one. The bars of a chart can be read off it in the order in which they are drawn, and the gates of
its diagram are these bars.

## Main definitions

* `Bar` — the upper or the lower end of the branches of a divergence.
* `Element.barsAll`, `Chart.bars` — the bars of a sequence and of a chart.
* `GateNode.shape`, `Bar.shape` — what a gate shows of a bar.

## Main statements

* `Element.length_barsAll` — every bar is a gate of the outline.
* `Chart.map_shape_of_draw` — the gates of a diagram show the bars of its chart, in their order.
-/

namespace SequentialChart

/-- Where the branches of a divergence begin or end. -/
structure Bar where
  junction : Junction
  mode : GateMode
  branches : List Branch

mutual

/-- The bars of an element, in the order in which they are drawn. -/
def Element.bars : Element → List Bar
  | .step _ => []
  | .transition _ => []
  | .jump _ => []
  | .divergence junction branches _ _ =>
    ⟨junction, .divergence, branches⟩ ::
      (Branch.barsAll branches ++ [⟨junction, .convergence, branches⟩])

/-- The bars of a sequence. -/
def Element.barsAll : List Element → List Bar
  | [] => []
  | e :: es => e.bars ++ Element.barsAll es

/-- The bars within a branch. -/
def Branch.bars : Branch → List Bar
  | .mk elements _ => Element.barsAll elements

/-- The bars within branches. -/
def Branch.barsAll : List Branch → List Bar
  | [] => []
  | b :: bs => b.bars ++ Branch.barsAll bs

end

/-- The bars of a chart. -/
def Chart.bars (c : Chart) : List Bar := Element.barsAll c.elements

/-- What a gate shows of a bar. -/
def Bar.shape (b : Bar) : Junction × GateMode × Nat := (b.junction, b.mode, b.branches.length)

variable {α : Type}

def GateNode.shape (g : GateNode α) : Junction × GateMode × Nat :=
  (g.junction, g.mode, g.branchCount)

/-! ### Bars and outlines -/

theorem Branch.length_barsAll (opening : NodeId) {bs : List Branch}
    (h : ∀ b ∈ bs, ∀ gate,
      (Element.barsAll b.elements).length = (Element.outlineAll [opening] gate b.elements).gates)
    (gate : Nat) : (Branch.barsAll bs).length = (Branch.outlineAll opening gate bs).gates := by
  induction bs generalizing gate with
  | nil => rfl
  | cons b bs ih =>
    obtain ⟨elements, span⟩ := b
    have hb := h (.mk elements span) List.mem_cons_self gate
    have hbs := ih (fun b hb => h b (List.mem_cons_of_mem _ hb))
    simp only [Branch.elements_mk] at hb
    rw [Branch.barsAll, List.length_append, hbs, Branch.bars, hb]
    rfl

/-- Every bar is a gate. -/
theorem Element.length_barsAll (es : List Element) (above : List NodeId) (gate : Nat) :
    (barsAll es).length = (outlineAll above gate es).gates := by
  have hnone : ∀ (es : List Element) (o : Outline) (gate : Nat), o.gates = 0 →
      (∀ above gate, (barsAll es).length = (outlineAll above gate es).gates) →
      (barsAll es).length = (o.stack (outlineAll o.exits (gate + o.gates) es)).gates := by
    intro es o gate ho ih
    rw [Outline.stack, ho, Nat.zero_add]
    exact ih _ _
  induction es using sequence_induction generalizing above gate with
  | nil => rfl
  | step s es ih => exact hnone es (.node above (.step s.number)) gate rfl ih
  | transition t es ih => exact hnone es (.node above (.transition t.number)) gate rfl ih
  | jump j es ih => exact hnone es (.jump above j.target) gate rfl ih
  | divergence junction bs span endSpan es hbs ih =>
    have hinner := Branch.length_barsAll (.gate gate)
      (fun b hb gate' => hbs b hb [.gate gate] gate') (gate + 1)
    have hes := ih ((divergence junction bs span endSpan).outline above gate).exits
      (gate + ((divergence junction bs span endSpan).outline above gate).gates)
    simp only [barsAll, bars, List.length_append, List.length_cons, List.length_nil, hinner, hes,
      outlineAll, outline, Outline.stack, Outline.bar]
    omega

theorem Element.length_bars (e : Element) (above : List NodeId) (gate : Nat) :
    e.bars.length = (e.outline above gate).gates := by
  simpa [barsAll, outlineAll, Outline.stack] using length_barsAll [e] above gate

/-! ### Bars and gates -/

variable [Length α]

theorem Branch.map_shape_placeAll {s : Spacing α} {column : α → Column α} {bs : List Branch}
    (h : ∀ b ∈ bs, ∀ (c : Column α) (gate : Nat),
      (Element.placeAll s c gate b.elements).1.gates.map GateNode.shape =
        (Element.barsAll b.elements).map Bar.shape)
    (gate : Nat) {centers : List α} (hlength : centers.length = bs.length) :
    (Branch.placeAll s column gate bs centers).1.gates.map GateNode.shape =
      (Branch.barsAll bs).map Bar.shape := by
  induction bs generalizing gate centers with
  | nil => rfl
  | cons b bs ih =>
    obtain ⟨elements, span⟩ := b
    cases centers with
    | nil => cases hlength
    | cons x centers =>
      have hb := h (.mk elements span) List.mem_cons_self (column x) gate
      have hbs := ih (fun b hb => h b (List.mem_cons_of_mem _ hb))
        (gate + (Element.placeAll s (column x) gate elements).1.gates.length)
        (Nat.succ.inj hlength)
      simp only [Branch.placeAll, Branch.place, Branch.barsAll, Branch.bars,
        Drawing.gates_append, List.map_append, hbs]
      exact congrArg (· ++ _) hb

theorem Element.map_shape_place_divergence {s : Spacing α} {c : Column α} {gate : Nat}
    {next : Option Element} {junction : Junction} {bs : List Branch} {span endSpan : Span}
    (h : ∀ b ∈ bs, ∀ (c : Column α) (gate : Nat),
      (Element.placeAll s c gate b.elements).1.gates.map GateNode.shape =
        (Element.barsAll b.elements).map Bar.shape) :
    ((Element.divergence junction bs span endSpan).place s c gate next).1.gates.map
        GateNode.shape = (Element.divergence junction bs span endSpan).bars.map Bar.shape := by
  have hlength : ∀ centerX : α,
      (s.branchCenters centerX (Branch.widths s bs)).length = bs.length := fun centerX => by
    rw [length_branchCenters, Branch.length_widths]
  simp only [place, bars, Drawing.gates_append, List.map_append, List.map_cons, List.map_nil,
    Branch.map_shape_placeAll h _ (hlength _), GateNode.shape, Bar.shape, List.cons_append,
    List.nil_append]

/-- The gates of a sequence show its bars. -/
theorem Element.map_shape_placeAll (s : Spacing α) (c : Column α) (gate : Nat)
    (es : List Element) :
    (placeAll s c gate es).1.gates.map GateNode.shape = (barsAll es).map Bar.shape := by
  have hcons : ∀ (e : Element) (es : List Element) (c : Column α) (gate : Nat),
      (e.place s c gate es.head?).1.gates.map GateNode.shape = e.bars.map Bar.shape →
      (∀ c gate, (placeAll s c gate es).1.gates.map GateNode.shape =
        (barsAll es).map Bar.shape) →
      (placeAll s c gate (e :: es)).1.gates.map GateNode.shape =
        (barsAll (e :: es)).map Bar.shape := by
    intro e es c gate he ih
    simp only [placeAll, barsAll, Drawing.gates_append, List.map_append, he, ih]
  induction es using sequence_induction generalizing c gate with
  | nil => rfl
  | step step es ih => exact hcons _ es c gate rfl ih
  | transition t es ih => exact hcons _ es c gate rfl ih
  | jump j es ih => exact hcons _ es c gate rfl ih
  | divergence junction bs span endSpan es hbs ih =>
    exact hcons _ es c gate (map_shape_place_divergence hbs) ih

/-- The gates of a diagram show the bars of its chart. -/
theorem Chart.map_shape_of_draw {c : Chart} {s : Spacing α} {d : Diagram α}
    (h : c.draw s = .ok d) : d.gates.map GateNode.shape = c.bars.map Bar.shape := by
  cases hjumps : (c.drawing s).routeJumps s.jumpMargin with
  | error e => simp [draw, hjumps, bind, Except.bind] at h
  | ok lines =>
    simp only [draw, hjumps, bind, Except.bind, pure, Except.pure, Except.ok.injEq] at h
    subst h
    exact Element.map_shape_placeAll s (trunk s) 0 c.elements

end SequentialChart
