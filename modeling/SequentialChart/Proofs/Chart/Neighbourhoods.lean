import Mathlib
import SequentialChart.NodeId
import SequentialChart.Proofs.Chart.Rules

/-!
# The steps around the transitions of a chart

Which steps a transition leads from and to can be read off the chart itself: from what stands before
and after it in its sequence and, at the ends of the branches of an OR divergence, from what stands
around the divergence.

## Main definitions

* `Neighbourhood` — a transition with the steps around it.
* `Element.stepsBehind`, `Element.stepsAhead`, `Element.continuation` — the steps in front of an
  element of a sequence and behind it.
* `Chart.neighbourhoods` — all transitions of a chart, in document order.

## Main statements

* `Element.sublist_of_mem_neighbourhoodsAll` — the steps around a transition stand in document
  order, too.
-/

namespace SequentialChart

/-- A transition with the steps before it and after it. -/
structure Neighbourhood where
  transition : NodeId
  predecessors : List NodeId
  successors : List NodeId
  deriving DecidableEq

namespace Branch

/-- The elements that branches begin with. -/
def heads (bs : List Branch) : List Element := bs.filterMap (·.elements.head?)

/-- The elements that branches end with. -/
def lasts (bs : List Branch) : List Element := bs.filterMap (·.elements.getLast?)

/-- The steps that branches begin with. -/
def firstSteps (bs : List Branch) : List NodeId := (Element.stepNumbers (heads bs)).map .step

/-- The steps that branches end with. -/
def lastSteps (bs : List Branch) : List NodeId := (Element.stepNumbers (lasts bs)).map .step

end Branch

namespace Element

/-- The steps before an element that stands behind `previous` in its sequence; `before` stand before
the first element of the sequence. -/
def stepsBehind (before : List NodeId) : Option Element → List NodeId
  | none => before
  | some (.step s) => [.step s.number]
  | some (.divergence .and branches _ _) => Branch.lastSteps branches
  | some _ => []

theorem stepsBehind_of_isTransition {before : List NodeId} {previous : Option Element}
    (h : previous.any isTransition) : stepsBehind before previous = [] := by
  cases previous with
  | none => cases h
  | some e => cases e <;> simp_all [isTransition, stepsBehind]

/-- The steps after a transition that the elements `rest` of its sequence follow; `after` stand
after the last element of the sequence. -/
def stepsAhead (after : List NodeId) : List Element → List NodeId
  | [] => after
  | .step s :: _ => [.step s.number]
  | .jump j :: _ => [.step j.target]
  | .divergence .and branches _ _ :: _ => Branch.firstSteps branches
  | _ => []

/-- The steps after an OR divergence that the elements `rest` of its sequence follow. A transition
directly behind it is passed. -/
def continuation (after : List NodeId) : List Element → List NodeId
  | .transition _ :: rest => stepsAhead after rest
  | rest => stepsAhead after rest

end Element

mutual

/-- The transitions in an element between `previous` and `rest`. -/
def Element.neighbourhoods (before after : List NodeId) (previous : Option Element)
    (rest : List Element) : Element → List Neighbourhood
  | .step _ => []
  | .transition t =>
    [⟨.transition t.number, Element.stepsBehind before previous, Element.stepsAhead after rest⟩]
  | .jump _ => []
  | .divergence .and branches _ _ => Branch.neighbourhoodsAll [] [] branches
  | .divergence .or branches _ _ =>
    Branch.neighbourhoodsAll (Element.stepsBehind before previous)
      (Element.continuation after rest) branches

/-- The transitions in the elements of a sequence behind `previous`. -/
def Element.neighbourhoodsAll (before after : List NodeId) (previous : Option Element) :
    List Element → List Neighbourhood
  | [] => []
  | e :: es => e.neighbourhoods before after previous es ++
    Element.neighbourhoodsAll before after (some e) es

/-- The transitions in a branch between the steps `before` and `after`. -/
def Branch.neighbourhoods (before after : List NodeId) : Branch → List Neighbourhood
  | .mk elements _ => Element.neighbourhoodsAll before after none elements

/-- The transitions in branches between the steps `before` and `after`. -/
def Branch.neighbourhoodsAll (before after : List NodeId) : List Branch → List Neighbourhood
  | [] => []
  | b :: bs => b.neighbourhoods before after ++ Branch.neighbourhoodsAll before after bs

end

/-- The transitions of the chart with the steps around them. -/
def Chart.neighbourhoods (c : Chart) : List Neighbourhood :=
  Element.neighbourhoodsAll [] [] none c.elements

theorem Branch.mem_neighbourhoodsAll {before after : List NodeId} {bs : List Branch}
    {n : Neighbourhood} : n ∈ Branch.neighbourhoodsAll before after bs ↔
      ∃ b ∈ bs, n ∈ Element.neighbourhoodsAll before after none b.elements := by
  induction bs with
  | nil => simp [Branch.neighbourhoodsAll]
  | cons b bs ih =>
    obtain ⟨elements, span⟩ := b
    simp [Branch.neighbourhoodsAll, Branch.neighbourhoods, ih]

/-! ### Document order -/

theorem Branch.map_transition_neighbourhoodsAll {bs : List Branch}
    (h : ∀ b ∈ bs, ∀ before after, (Element.neighbourhoodsAll before after none b.elements).map
      (·.transition) = (Element.transitionNumbers (Element.walkAll b.elements)).map .transition)
    (before after : List NodeId) : (Branch.neighbourhoodsAll before after bs).map (·.transition) =
      (Element.transitionNumbers (Branch.walkBranches bs)).map .transition := by
  induction bs with
  | nil => rfl
  | cons b bs ih =>
    obtain ⟨elements, span⟩ := b
    have hb := h (.mk elements span) (by simp) before after
    simp only [Branch.elements_mk] at hb
    simp [Branch.neighbourhoodsAll, Branch.neighbourhoods, Branch.walkBranches, Branch.walk, hb,
      ih fun b hb => h b (by simp [hb])]

/-- The transitions stand in document order. -/
theorem Element.map_transition_neighbourhoodsAll (es : List Element) (before after : List NodeId)
    (previous : Option Element) :
    (Element.neighbourhoodsAll before after previous es).map (·.transition) =
      (Element.transitionNumbers (Element.walkAll es)).map .transition := by
  induction es using Element.sequence_induction generalizing before after previous with
  | nil => rfl
  | step s es ih => exact ih before after _
  | transition t es ih => exact congrArg (_ :: ·) (ih before after _)
  | jump j es ih => exact ih before after _
  | divergence junction bs span endSpan es hbs ih =>
    have hinner := Branch.map_transition_neighbourhoodsAll
      (fun b hb before after => hbs b hb before after none)
    have hdivergence : Element.transitionNumbers
        (Element.divergence junction bs span endSpan).walk =
          Element.transitionNumbers (Branch.walkBranches bs) := rfl
    rw [Element.neighbourhoodsAll, Element.walkAll, List.map_append, ih,
      Element.transitionNumbers_append, List.map_append, hdivergence]
    cases junction <;> simp only [Element.neighbourhoods, hinner]

theorem Chart.map_transition_neighbourhoods (c : Chart) :
    c.neighbourhoods.map (·.transition) = (Element.transitionNumbers c.walk).map .transition :=
  Element.map_transition_neighbourhoodsAll c.elements [] [] none

namespace Element

theorem head?_sublist_walkAll (es : List Element) : es.head?.toList.Sublist (walkAll es) := by
  cases es with
  | nil => exact .slnil
  | cons e es =>
    have : [e].Sublist e.walk := by cases e <;> simp [walk]
    exact this.trans (List.sublist_append_left _ _)

theorem getLast?_sublist_walkAll (es : List Element) :
    es.getLast?.toList.Sublist (walkAll es) := by
  rcases List.eq_nil_or_concat es with rfl | ⟨es, e, rfl⟩
  · exact .slnil
  · have := (head?_sublist_walkAll [e]).trans (List.sublist_append_right (walkAll es) _)
    simpa using this

end Element

namespace Branch

theorem heads_sublist (bs : List Branch) : (heads bs).Sublist (walkBranches bs) := by
  induction bs with
  | nil => exact .slnil
  | cons b bs ih =>
    obtain ⟨elements, span⟩ := b
    have hb := (Element.head?_sublist_walkAll elements).append ih
    unfold heads at hb ⊢
    cases hhead : elements.head? <;> simpa [hhead, walkBranches, walk] using hb

theorem lasts_sublist (bs : List Branch) : (lasts bs).Sublist (walkBranches bs) := by
  induction bs with
  | nil => exact .slnil
  | cons b bs ih =>
    obtain ⟨elements, span⟩ := b
    have hb := (Element.getLast?_sublist_walkAll elements).append ih
    unfold lasts at hb ⊢
    cases hlast : elements.getLast? <;> simpa [hlast, walkBranches, walk] using hb

theorem walkAll_sublist_walkBranches {b : Branch} {bs : List Branch} (h : b ∈ bs) :
    (Element.walkAll b.elements).Sublist (walkBranches bs) := by
  induction bs with
  | nil => cases h
  | cons b' bs ih =>
    rcases List.mem_cons.1 h with rfl | h
    · cases b
      exact List.sublist_append_left _ _
    · exact (ih h).trans (List.sublist_append_right _ _)

theorem firstSteps_sublist (bs : List Branch) :
    (firstSteps bs).Sublist ((Element.stepNumbers (walkBranches bs)).map .step) :=
  (Element.stepNumbers_sublist (heads_sublist bs)).map _

theorem lastSteps_sublist (bs : List Branch) :
    (lastSteps bs).Sublist ((Element.stepNumbers (walkBranches bs)).map .step) :=
  (Element.stepNumbers_sublist (lasts_sublist bs)).map _

end Branch

namespace Element

variable {S before after : List NodeId} {e : Element} {es : List Element}

/-- The steps of the elements and the targets of their jumps stand in `S`. -/
structure StandIn (S : List NodeId) (es : List Element) : Prop where
  steps : ((stepNumbers (walkAll es)).map .step).Sublist S
  jumps : ∀ n ∈ jumpTargets (walkAll es), .step n ∈ S

namespace StandIn

theorem head (h : StandIn S (e :: es)) : StandIn S [e] where
  steps := by
    refine .trans ?_ h.steps
    simp [walkAll]
  jumps n hn := h.jumps n (by simp_all [walkAll])

theorem tail (h : StandIn S (e :: es)) : StandIn S es where
  steps := by
    refine .trans ?_ h.steps
    simp [walkAll]
  jumps n hn := h.jumps n (by simp [walkAll, hn])

end StandIn

namespace StandIn

variable {junction : Junction} {bs : List Branch} {span endSpan : Span}

theorem walkBranches_sublist : (Branch.walkBranches bs).Sublist
    (walkAll (.divergence junction bs span endSpan :: es)) :=
  (List.sublist_cons_self _ _).trans (List.sublist_append_left _ _)

theorem branches (h : StandIn S (.divergence junction bs span endSpan :: es)) :
    ((stepNumbers (Branch.walkBranches bs)).map .step).Sublist S :=
  ((stepNumbers_sublist walkBranches_sublist).map _).trans h.steps

theorem branch (h : StandIn S (.divergence junction bs span endSpan :: es)) {b : Branch}
    (hb : b ∈ bs) : StandIn S b.elements where
  steps := ((stepNumbers_sublist (Branch.walkAll_sublist_walkBranches hb)).map _).trans h.branches
  jumps n hn := h.jumps n ((jumpTargets_sublist
    ((Branch.walkAll_sublist_walkBranches hb).trans walkBranches_sublist)).subset hn)

end StandIn

theorem stepsBehind_sublist (h : StandIn S (e :: es)) (before : List NodeId) :
    (stepsBehind before (some e)).Sublist S := by
  match e with
  | .step s => exact h.head.steps
  | .transition t => exact List.nil_sublist _
  | .jump j => exact List.nil_sublist _
  | .divergence .and bs _ _ => exact (Branch.lastSteps_sublist bs).trans h.branches
  | .divergence .or bs _ _ => exact List.nil_sublist _

theorem stepsAhead_sublist (h : StandIn S es) (hafter : after.Sublist S) :
    (stepsAhead after es).Sublist S := by
  match es with
  | [] => exact hafter
  | .step s :: es => exact h.head.steps
  | .transition t :: es => exact List.nil_sublist _
  | .jump j :: es =>
    have hj : j.target ∈ jumpTargets (walkAll (.jump j :: es)) := by
      simp [walkAll, walk, jumpTargets, jump?]
    exact List.singleton_sublist.2 (h.jumps j.target hj)
  | .divergence .and bs _ _ :: es => exact (Branch.firstSteps_sublist bs).trans h.branches
  | .divergence .or bs _ _ :: es => exact List.nil_sublist _

theorem continuation_sublist (h : StandIn S es) (hafter : after.Sublist S) :
    (continuation after es).Sublist S := by
  unfold continuation
  split
  · exact stepsAhead_sublist h.tail hafter
  · exact stepsAhead_sublist h hafter

/-- The steps around a transition stand in document order. -/
theorem sublist_of_mem_neighbourhoodsAll {previous : Option Element} (h : StandIn S es)
    (hbehind : (stepsBehind before previous).Sublist S) (hafter : after.Sublist S)
    {n : Neighbourhood} (hn : n ∈ neighbourhoodsAll before after previous es) :
    n.predecessors.Sublist S ∧ n.successors.Sublist S := by
  induction es using sequence_induction generalizing before after previous with
  | nil => cases hn
  | step s es ih => exact ih h.tail (stepsBehind_sublist h before) hafter hn
  | transition t es ih =>
    rcases List.mem_cons.1 hn with rfl | hn
    · exact ⟨hbehind, stepsAhead_sublist h.tail hafter⟩
    · exact ih h.tail (stepsBehind_sublist h before) hafter hn
  | jump j es ih => exact ih h.tail (stepsBehind_sublist h before) hafter hn
  | divergence junction bs span endSpan es hbs ih =>
    rcases List.mem_append.1 hn with hn | hn
    · cases junction with
      | and =>
        obtain ⟨b, hb, hn⟩ := Branch.mem_neighbourhoodsAll.1 hn
        have hnone : (stepsBehind [] none).Sublist S := List.nil_sublist S
        exact hbs b hb (h.branch hb) hnone (List.nil_sublist S) hn
      | or =>
        obtain ⟨b, hb, hn⟩ := Branch.mem_neighbourhoodsAll.1 hn
        have hnone : (stepsBehind (stepsBehind before previous) none).Sublist S := hbehind
        exact hbs b hb (h.branch hb) hnone (continuation_sublist h.tail hafter) hn
    · exact ih h.tail (stepsBehind_sublist h before) hafter hn

end Element

end SequentialChart
