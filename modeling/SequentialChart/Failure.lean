import SequentialChart.Compile
import SequentialChart.Expression.Basic
import SequentialChart.Files.Basic
import SequentialChart.Simulation.Scenario

/-!
# Failures

Why the program did not do what it was asked to do, and how it says so. A refused source is reported
with all its diagnostics; any other failure is one report.

## Main definitions

* `Failure`, `Failure.message`.
* `Report`, `Failure.reports`.
-/

namespace SequentialChart

inductive Failure where
  | file (fault : FileFault)
  | missingConfig (path : String)
  | unreadableConfig
  | compile (reason : CompileError)
  | expression (reason : ExpressionError)
  | scenario (reason : ScenarioError)

structure Report where
  message : String
  code : Option String
  severity : Option Severity := none
  help : Option String := none
  labels : List Label := []

def Diagnostic.report (d : Diagnostic) : Report where
  message := d.message
  code := d.code.map (·.text)
  severity := some d.severity
  help := d.help
  labels := d.labels

namespace Failure

def message : Failure → String
  | file fault => "I/O error: " ++ fault.message
  | missingConfig path => "I/O error: Missing configuration file: " ++ path
  | unreadableConfig => "I/O error: Failed to parse TOML configuration"
  | compile (.refused diagnostics) => Diagnostic.summary diagnostics
  | compile (.notDrawn reason) => "Layout error: " ++ reason.message
  | expression reason => "Invalid expression: " ++ reason.message
  | scenario reason => "Scenario error: " ++ reason.message

def help : Failure → Option String
  | expression _ =>
    some "operators are AND, OR, NOT, RE, FE and comparisons; quote the whole expression"
  | _ => none

/-- The area that a failure belongs to. A refused source has the codes of its diagnostics
instead. -/
def code? : Failure → Option String
  | file _ | missingConfig _ | unreadableConfig => some "grafcet::io"
  | compile (.refused _) => none
  | compile (.notDrawn _) => some "grafcet::layout"
  | expression _ => some "grafcet::expression"
  | scenario _ => some "grafcet::scenario"

def reports (f : Failure) : List Report :=
  match f with
  | compile (.refused diagnostics) => diagnostics.map Diagnostic.report
  | _ => [{ message := f.message, code := f.code?, help := f.help }]

end Failure

end SequentialChart
