import SequentialChart.Chart.Conditions
import SequentialChart.Config
import SequentialChart.Diagram.Placement

/-!
# From a source to a diagram

Checking a source finds everything that is wrong with it; compiling it draws the chart as well.

## Main definitions

* `CompileError`, `Compiled`.
* `Chart.checkAll` — the chart of a source, with all warnings.
* `Chart.compile` — its diagram.
-/

namespace SequentialChart

inductive CompileError where
  | refused (diagnostics : List Diagnostic)
  | notDrawn (reason : DrawError)

structure Compiled where
  diagram : Diagram Float32
  warnings : List Diagnostic

namespace Chart

/-- The chart of a source that follows the rules, with the warnings about it, those about conditions
last. -/
def checkAll (source : String) : Except (List Diagnostic) (Chart × List Diagnostic) := do
  let (chart, warnings) ← check source
  return (chart, warnings ++ chart.conditionFindings.map (·.diagnostic))

def compile (config : Config) (source : String) : Except CompileError Compiled :=
  match checkAll source with
  | .error diagnostics => .error (.refused diagnostics)
  | .ok (chart, warnings) =>
    match chart.draw config.spacing with
    | .error reason => .error (.notDrawn reason)
    | .ok diagram => .ok { diagram, warnings }

theorem checkAll_eq_error_iff {source : String} {ds : List Diagnostic} :
    checkAll source = .error ds ↔ check source = .error ds := by
  cases h : check source <;> simp [checkAll, h, bind, Except.bind, pure, Except.pure]

theorem checkAll_eq_ok_iff {source : String} {c : Chart} {ds : List Diagnostic} :
    checkAll source = .ok (c, ds) ↔
      ∃ warnings, check source = .ok (c, warnings) ∧
        ds = warnings ++ c.conditionFindings.map (·.diagnostic) := by
  cases h : check source with
  | error => simp [checkAll, h, bind, Except.bind]
  | ok r =>
    obtain ⟨c', warnings⟩ := r
    simp only [checkAll, h, bind, Except.bind, pure, Except.pure]
    grind

/-- A source compiles exactly if it is accepted and its chart can be drawn. -/
theorem compile_eq_ok_iff {config : Config} {source : String} {r : Compiled} :
    compile config source = .ok r ↔
      ∃ c, checkAll source = .ok (c, r.warnings) ∧ c.draw config.spacing = .ok r.diagram := by
  unfold compile
  cases h : checkAll source with
  | error => simp
  | ok a =>
    obtain ⟨c, warnings⟩ := a
    cases hd : c.draw config.spacing with
    | error => grind
    | ok diagram => cases r; grind

end Chart

end SequentialChart
