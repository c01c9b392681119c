import SequentialChart.Data.Basic
import SequentialChart.Geometry

/-!
# Spacing

The sizes of what is drawn and the distances between it.

## Main definitions

* `Spacing`, `Spacing.default`.
* `Spacing.ofData?` — spacing from a configuration, in which every length may be missing.
* `Spacing.entries` — all lengths by name.
-/

namespace SequentialChart

structure Spacing (α : Type) where
  /-- The upper left corner of the first step. -/
  originX : α
  originY : α
  stepWidth : α
  stepHeight : α
  transitionWidth : α
  transitionHeight : α
  andGateHeight : α
  orGateHeight : α
  /-- From a step down to the next transition. -/
  stepToTransition : α
  /-- The same, if parallel branches begin after the transition. -/
  stepToTransitionCompressed : α
  transitionToStep : α
  /-- From what stands before a gate down to the gate. -/
  andGateOffset : α
  orGateOffset : α
  /-- From the end of branches down to what follows. -/
  andPostConvergence : α
  orPostConvergence : α
  branchSpacing : α
  /-- By how much a gate is wider than the distance between its outermost branches. -/
  gateMargin : α
  /-- Between the diagram and the first jump. -/
  jumpMargin : α

namespace Spacing

variable {α : Type}

def default [Length α] : Spacing α where
  originX := Length.ofNat 40
  originY := Length.ofNat 40
  stepWidth := Length.ofNat 40
  stepHeight := Length.ofNat 40
  transitionWidth := Length.ofNat 30
  transitionHeight := Length.ofNat 4
  andGateHeight := Length.ofNat 6
  orGateHeight := Length.ofNat 0
  stepToTransition := Length.ofNat 30
  stepToTransitionCompressed := Length.ofNat 20
  transitionToStep := Length.ofNat 30
  andGateOffset := Length.ofNat 15
  orGateOffset := Length.ofNat 15
  andPostConvergence := Length.ofNat 20
  orPostConvergence := Length.ofNat 30
  branchSpacing := Length.ofNat 60
  gateMargin := Length.ofNat 40
  jumpMargin := Length.ofNat 30

def entries (s : Spacing α) : List (String × α) :=
  [("origin_x", s.originX), ("origin_y", s.originY),
   ("step_width", s.stepWidth), ("step_height", s.stepHeight),
   ("transition_width", s.transitionWidth), ("transition_height", s.transitionHeight),
   ("and_gate_height", s.andGateHeight), ("or_gate_height", s.orGateHeight),
   ("step_to_transition", s.stepToTransition),
   ("step_to_transition_compressed", s.stepToTransitionCompressed),
   ("transition_to_step", s.transitionToStep),
   ("and_gate_offset", s.andGateOffset), ("or_gate_offset", s.orGateOffset),
   ("and_post_convergence", s.andPostConvergence), ("or_post_convergence", s.orPostConvergence),
   ("branch_spacing", s.branchSpacing), ("gate_margin", s.gateMargin),
   ("jump_margin", s.jumpMargin)]

/-- The spacing that a configuration gives; what it does not mention keeps its default. -/
def ofData? (format : DataFormat) (d : Data) : Option (Spacing Float32) := do
  let s : Spacing Float32 := default
  let d ← d.asRecord? format (s.entries.map Prod.fst)
  let length (name : String) (otherwise : Float32) := d.entryOr name otherwise Data.toFloat32?
  return {
    originX := ← length "origin_x" s.originX
    originY := ← length "origin_y" s.originY
    stepWidth := ← length "step_width" s.stepWidth
    stepHeight := ← length "step_height" s.stepHeight
    transitionWidth := ← length "transition_width" s.transitionWidth
    transitionHeight := ← length "transition_height" s.transitionHeight
    andGateHeight := ← length "and_gate_height" s.andGateHeight
    orGateHeight := ← length "or_gate_height" s.orGateHeight
    stepToTransition := ← length "step_to_transition" s.stepToTransition
    stepToTransitionCompressed :=
      ← length "step_to_transition_compressed" s.stepToTransitionCompressed
    transitionToStep := ← length "transition_to_step" s.transitionToStep
    andGateOffset := ← length "and_gate_offset" s.andGateOffset
    orGateOffset := ← length "or_gate_offset" s.orGateOffset
    andPostConvergence := ← length "and_post_convergence" s.andPostConvergence
    orPostConvergence := ← length "or_post_convergence" s.orPostConvergence
    branchSpacing := ← length "branch_spacing" s.branchSpacing
    gateMargin := ← length "gate_margin" s.gateMargin
    jumpMargin := ← length "jump_margin" s.jumpMargin }

end Spacing

end SequentialChart
