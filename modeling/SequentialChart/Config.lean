import SequentialChart.Diagram.Spacing

/-!
# Configuration

What can be set from outside: how a chart is drawn, and how long a pulse lasts when it is run.

## Main definitions

* `Config`, `Config.ofData?`.
-/

namespace SequentialChart

structure Config where
  spacing : Spacing Float32 := .default
  /-- The length of a pulse in seconds. -/
  pulse : Float := 0.1

namespace Config

def pulseOfData? (format : DataFormat) (d : Data) : Option Float := do
  let d ← d.asRecord? format ["pulse_duration"]
  d.entryOr "pulse_duration" 0.1 Data.toFloat?

/-- The settings that a configuration gives; what it does not mention keeps its default, and what it
mentions beyond the settings does not matter. -/
def ofData? (format : DataFormat) (d : Data) : Option Config := do
  let d ← d.asRecord? format ["layout", "simulation"]
  let spacing ← d.entryOr "layout" .default (Spacing.ofData? format)
  let pulse ← d.entryOr "simulation" 0.1 (pulseOfData? format)
  return { spacing, pulse }

end Config

end SequentialChart
