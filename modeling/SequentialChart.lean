import SequentialChart.Files.Folder
import SequentialChart.Main
import SequentialChart.Proofs.Expression.Formula
import SequentialChart.Proofs.Expression.Rendering
import SequentialChart.Proofs.Expression.Alternation
import SequentialChart.Proofs.Chart.Rules
import SequentialChart.Proofs.Chart.Numbers
import SequentialChart.Proofs.Chart.Neighbourhoods
import SequentialChart.Proofs.Chart.Regions
import SequentialChart.Proofs.Chart.Marking
import SequentialChart.Proofs.Chart.Moves
import SequentialChart.Proofs.Chart.Structured
import SequentialChart.Proofs.Chart.Surroundings
import SequentialChart.Proofs.Diagram.Exploration
import SequentialChart.Proofs.Diagram.Outline
import SequentialChart.Proofs.Diagram.Region
import SequentialChart.Proofs.Diagram.Neighbourhoods
import SequentialChart.Proofs.Simulation.Firing
import SequentialChart.Proofs.Simulation.Structured
import SequentialChart.Proofs.Chart.Validity
import SequentialChart.Proofs.Simulation.Clocks
import SequentialChart.Proofs.Chart.Nesting
import SequentialChart.Proofs.Chart.Reading
import SequentialChart.Proofs.Diagram.Bars
import SequentialChart.Proofs.Diagram.Degrees
import SequentialChart.Proofs.Simulation.Effects
import SequentialChart.Proofs.Simulation.Latches
import SequentialChart.Proofs.Simulation.Activity
import SequentialChart.Proofs.Diagram.Reachable
import SequentialChart.Proofs.Expression.Variables
import SequentialChart.Proofs.Chart.Places
import SequentialChart.Proofs.Diagram.Joins
import SequentialChart.Proofs.Simulation.Edges
import SequentialChart.Proofs.Simulation.Choices
import SequentialChart.Proofs.Simulation.Irrelevance
import SequentialChart.Proofs.Expression.Reordering
import SequentialChart.Proofs.Chart.Labels
import SequentialChart.Proofs.Simulation.Scenarios
import SequentialChart.Proofs.Diagram.Jumps
import SequentialChart.Proofs.Diagram.Sections
import SequentialChart.Proofs.Diagram.Descent
import SequentialChart.Proofs.Diagram.Columns
import SequentialChart.Proofs.Source.Cutting
import SequentialChart.Proofs.Chart.FreeNumbers
import SequentialChart.Proofs.Diagram.Routes
import SequentialChart.Proofs.Source.Edits
import SequentialChart.Proofs.Directive.Agreement
import SequentialChart.Proofs.Chart.Unplaced
import SequentialChart.Proofs.Chart.Edited
import SequentialChart.Proofs.Simulation.Frame
import SequentialChart.Proofs.Simulation.Snapshot
import SequentialChart.Proofs.Directive.Given
import SequentialChart.Proofs.Expression.Numerals
import SequentialChart.Proofs.Directive.Transitions
import SequentialChart.Proofs.Directive.Attributes
import SequentialChart.Proofs.Decimal.Order
import SequentialChart.Proofs.Decimal.Storage
import SequentialChart.Proofs.Decimal.Rounding
import SequentialChart.Proofs.Decimal.Sums
import SequentialChart.Proofs.Simulation.Times
import SequentialChart.Proofs.Chart.Paths
