import Mathlib
import SequentialChart.Diagram.Placement

/-!
# Exact lengths

Lengths are rounded when a diagram is drawn for a file. Rational numbers are lengths as well, with
which nothing is rounded: what holds of a diagram drawn with them is due to how it is drawn, and not
to how well its numbers fit.

## Main definitions

* The instance that makes rational numbers lengths.
* `Spacing.IsNonneg` — no size and no distance is negative.

## Main statements

* `Spacing.IsNonneg.gapBefore` — no gap between elements is negative then.
-/

namespace SequentialChart

instance : Length ℚ where
  ofNat n := n
  scale n x := n * x
  half x := x / 2
  larger := max
  smaller := min
  same x y := decide (x = y)

namespace Length

@[simp] theorem ofNat_rat (n : Nat) : (ofNat n : ℚ) = n := rfl

@[simp] theorem scale_rat (n : Nat) (x : ℚ) : scale n x = n * x := rfl

@[simp] theorem half_rat (x : ℚ) : half x = x / 2 := rfl

@[simp] theorem larger_rat (x y : ℚ) : larger x y = max x y := rfl

end Length

namespace Spacing

/-- None of the lengths is negative. -/
def IsNonneg (s : Spacing ℚ) : Prop := ∀ e ∈ s.entries, 0 ≤ e.2

theorem isNonneg_default : (default : Spacing ℚ).IsNonneg := by
  unfold IsNonneg
  simp [entries, default]

namespace IsNonneg

variable {s : Spacing ℚ}

theorem stepWidth (h : s.IsNonneg) : 0 ≤ s.stepWidth := h ("step_width", _) (by simp [entries])

theorem transitionWidth (h : s.IsNonneg) : 0 ≤ s.transitionWidth :=
  h ("transition_width", _) (by simp [entries])

theorem branchSpacing (h : s.IsNonneg) : 0 ≤ s.branchSpacing :=
  h ("branch_spacing", _) (by simp [entries])

theorem stepHeight (h : s.IsNonneg) : 0 ≤ s.stepHeight := h ("step_height", _) (by simp [entries])

theorem transitionHeight (h : s.IsNonneg) : 0 ≤ s.transitionHeight :=
  h ("transition_height", _) (by simp [entries])

theorem stepToTransition (h : s.IsNonneg) : 0 ≤ s.stepToTransition :=
  h ("step_to_transition", _) (by simp [entries])

theorem transitionToStep (h : s.IsNonneg) : 0 ≤ s.transitionToStep :=
  h ("transition_to_step", _) (by simp [entries])

theorem gateOffset (h : s.IsNonneg) (junction : Junction) : 0 ≤ s.gateOffset junction := by
  cases junction with
  | and => exact h ("and_gate_offset", _) (by simp [entries])
  | or => exact h ("or_gate_offset", _) (by simp [entries])

theorem gateHeight (h : s.IsNonneg) (junction : Junction) : 0 ≤ s.gateHeight junction := by
  cases junction with
  | and => exact h ("and_gate_height", _) (by simp [entries])
  | or => exact h ("or_gate_height", _) (by simp [entries])

theorem gapBefore (h : s.IsNonneg) (last : Option AnchorKind) (e : Element)
    (next : Option Element) : 0 ≤ s.gapBefore last e next := by
  have hcompressed : 0 ≤ s.stepToTransitionCompressed :=
    h ("step_to_transition_compressed", _) (by simp [entries])
  have hand : 0 ≤ s.andPostConvergence := h ("and_post_convergence", _) (by simp [entries])
  have hor : 0 ≤ s.orPostConvergence := h ("or_post_convergence", _) (by simp [entries])
  unfold Spacing.gapBefore
  split
  · exact h.gateOffset _
  · split
    · exact le_rfl
    · split
      · exact hcompressed
      · exact h.stepToTransition
    · exact h.transitionToStep
    · exact hand
    · exact hor

end IsNonneg

end Spacing

end SequentialChart
