import Mathlib
import SequentialChart.Chart.Basic

/-!
# Induction over sequences

The sequences of a chart are nested: a divergence is an element of a sequence, and its branches are
sequences again. A property of all sequences is proved for a sequence with a divergence in front
from the branches of that divergence and from the rest of the sequence.

## Main statements

* `Element.sequence_induction` — the principle.
-/

namespace SequentialChart

theorem Branch.sizeOf_elements_lt {b : Branch} {bs : List Branch} (h : b ∈ bs) :
    sizeOf b.elements < sizeOf bs := by
  have hb := List.sizeOf_lt_of_mem h
  cases b with
  | mk elements span =>
    simp only [Branch.elements_mk, Branch.mk.sizeOf_spec] at hb ⊢
    omega

theorem Branch.mem_walkBranches_iff {bs : List Branch} {e : Element} :
    e ∈ walkBranches bs ↔ ∃ b ∈ bs, e ∈ Element.walkAll b.elements := by
  induction bs with
  | nil => simp [walkBranches]
  | cons b bs ih =>
    obtain ⟨elements, span⟩ := b
    simp [walkBranches, walk, ih]

/-- What holds of a sequence if it holds of its rest and of the branches in front of that, holds of
all sequences. -/
@[elab_as_elim]
theorem Element.sequence_induction {motive : List Element → Prop} (nil : motive [])
    (step : ∀ s es, motive es → motive (.step s :: es))
    (transition : ∀ t es, motive es → motive (.transition t :: es))
    (jump : ∀ j es, motive es → motive (.jump j :: es))
    (divergence : ∀ junction branches span endSpan es, (∀ b ∈ branches, motive b.elements) →
      motive es → motive (.divergence junction branches span endSpan :: es))
    (es : List Element) : motive es :=
  match es with
  | [] => nil
  | .step s :: es =>
    step s es (sequence_induction nil step transition jump divergence es)
  | .transition t :: es =>
    transition t es (sequence_induction nil step transition jump divergence es)
  | .jump j :: es =>
    jump j es (sequence_induction nil step transition jump divergence es)
  | .divergence junction branches span endSpan :: es =>
    divergence junction branches span endSpan es
      (fun b _ => sequence_induction nil step transition jump divergence b.elements)
      (sequence_induction nil step transition jump divergence es)
termination_by sizeOf es
decreasing_by
  · rw [List.cons.sizeOf_spec]
    omega
  · rw [List.cons.sizeOf_spec]
    omega
  · rw [List.cons.sizeOf_spec]
    omega
  · have := Branch.sizeOf_elements_lt ‹b ∈ branches›
    rw [List.cons.sizeOf_spec, Element.divergence.sizeOf_spec]
    omega
  · rw [List.cons.sizeOf_spec]
    omega

end SequentialChart
