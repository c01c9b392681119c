import SequentialChart.Chart.Numbering
import SequentialChart.Directive.Read

/-!
# Building a chart

The directives of a source are put together line by line. While a divergence is open, new elements
belong to its open branch; without an open divergence they belong to the root. A directive that
finds no place is reported, and building goes on, so that one run finds all that is wrong.

## Main definitions

* `NestingFault`, `ParseFinding` — what can be wrong with a line.
* `Build` — the chart built so far, with the divergences that are open.
* `Build.apply` — the effect of a directive.
* `Chart.parse` — the chart a source denotes.
-/

namespace SequentialChart

/-! ### Findings -/

inductive Misplacement where
  /-- An element within a divergence but in none of its branches. -/
  | outsideBranch (keyword : String)
  | branchOutsideDivergence
  | endBranchOutsideDivergence
  | endBranchWithoutBranch
  | endDivergenceOutsideDivergence
  deriving DecidableEq

def Misplacement.message : Misplacement → String
  | outsideBranch keyword => "`" ++ keyword ++ "` must be inside a `Branch`"
  | branchOutsideDivergence => "`Branch` outside a divergence"
  | endBranchOutsideDivergence => "`EndBranch` outside a divergence"
  | endBranchWithoutBranch => "`EndBranch` without a matching `Branch`"
  | endDivergenceOutsideDivergence => "`EndDivergence` outside a divergence"

inductive NestingFault where
  | unclosed (junction : Junction) (opening : Span)
  | misplaced (what : Misplacement) (place : Span)
  /-- An action or a linked file without a step before it. -/
  | detached (keyword : String) (place : Span)
  deriving DecidableEq

def NestingFault.diagnostic : NestingFault → Diagnostic
  | unclosed junction opening =>
    { severity := .error, code := some .e101
      message := junction.text ++ " divergence is never closed"
      labels := [{ span := opening, message := "opened here" }]
      help := some "add `EndDivergence` after the last `EndBranch`" }
  | misplaced what place =>
    { severity := .error, code := some .e102
      message := what.message
      labels := [{ span := place, message := "misplaced directive" }] }
  | detached keyword place =>
    { severity := .error, code := some .e105
      message := "`" ++ keyword ++ "` has no step to attach to"
      labels := [{ span := place, message := "no preceding step in this sequence" }]
      help := some ("place `" ++ keyword ++ "` after the `Step` it belongs to") }

inductive ParseFinding where
  | directive (fault : DirectiveFault)
  | nesting (fault : NestingFault)
  | unrecognized (place : Span)
  deriving DecidableEq

namespace ParseFinding

def diagnostic : ParseFinding → Diagnostic
  | directive fault => fault.diagnostic
  | nesting fault => fault.diagnostic
  | unrecognized place =>
    { severity := .warning, code := some .e106
      message := "unrecognized line is ignored"
      labels := [{ span := place, message := "not a directive" }]
      help := some ("known directives are SFC, Step, Transition, Action, LinkedFile, Jump, " ++
        "Divergence, Branch, EndBranch and EndDivergence") }

/-- Whether the finding stops the work; only unrecognized lines do not. -/
def isFault : ParseFinding → Bool
  | unrecognized _ => false
  | _ => true

@[simp] theorem isError_diagnostic (f : ParseFinding) : f.diagnostic.isError = f.isFault := by
  cases f with
  | directive fault => exact fault.isError_diagnostic
  | nesting fault => cases fault <;> rfl
  | unrecognized place => rfl

end ParseFinding

/-! ### The chart built so far -/

structure OpenBranch where
  span : Span
  elements : List Element

structure OpenDivergence where
  junction : Junction
  span : Span
  branches : List Branch
  current : Option OpenBranch

namespace OpenDivergence

def closeBranch (d : OpenDivergence) : OpenDivergence :=
  match d.current with
  | some b => { d with branches := .mk b.elements.reverse b.span :: d.branches, current := none }
  | none => d

def close (d : OpenDivergence) (endSpan : Span) : Element :=
  .divergence d.junction d.closeBranch.branches.reverse d.span endSpan

end OpenDivergence

/-- A chart while it is being built, with the latest first in every list. -/
structure Build where
  title : Option (Located String) := none
  root : List Element := []
  /-- The divergences that are open, the innermost first. -/
  pending : List OpenDivergence := []
  findings : List ParseFinding := []

namespace Build

/-- The sequence that new elements belong to, its latest element first; there is none within a
divergence but outside its branches. -/
def sequence? (b : Build) : Option (List Element) :=
  match b.pending with
  | [] => some b.root
  | d :: _ => d.current.map (·.elements)

def setSequence (b : Build) (elements : List Element) : Build :=
  match b.pending with
  | [] => { b with root := elements }
  | d :: outer =>
    { b with pending := { d with current := d.current.map ({ · with elements }) } :: outer }

def report (b : Build) (f : ParseFinding) : Build := { b with findings := f :: b.findings }

def misplaced (b : Build) (what : Misplacement) (place : Span) : Build :=
  b.report (.nesting (.misplaced what place))

def push (b : Build) (e : Element) (keyword : String) : Build :=
  match b.sequence? with
  | some elements => b.setSequence (e :: elements)
  | none => b.misplaced (.outsideBranch keyword) e.span

def updateStep (f : Step → Step) : List Element → Option (List Element)
  | [] => none
  | .step s :: rest => some (.step (f s) :: rest)
  | e :: rest => (updateStep f rest).map (e :: ·)

/-- Changes the latest step of the current sequence. -/
def attach (b : Build) (keyword : String) (place : Span) (f : Step → Step) : Build :=
  match b.sequence?.bind (updateStep f) with
  | some elements => b.setSequence elements
  | none => b.report (.nesting (.detached keyword place))

/-- Opens a divergence. Outside a branch that is a fault, but its lines still belong together. -/
def openDivergence (b : Build) (junction : Junction) (span : Span) : Build :=
  let b := if b.sequence?.isNone then b.misplaced (.outsideBranch "Divergence") span else b
  { b with pending := { junction, span, branches := [], current := none } :: b.pending }

/-- Opens a branch; the one before it ends here if it has not ended. -/
def openBranch (b : Build) (span : Span) : Build :=
  match b.pending with
  | d :: outer =>
    { b with pending := { d.closeBranch with current := some { span, elements := [] } } :: outer }
  | [] => b.misplaced .branchOutsideDivergence span

def endBranch (b : Build) (span : Span) : Build :=
  match b.pending with
  | d :: outer =>
    match d.current with
    | some _ => { b with pending := d.closeBranch :: outer }
    | none => b.misplaced .endBranchWithoutBranch span
  | [] => b.misplaced .endBranchOutsideDivergence span

/-- Ends the innermost divergence, which becomes an element of the sequence around it. One that was
opened outside a branch has been reported and is left out. -/
def endDivergence (b : Build) (span : Span) : Build :=
  match b.pending with
  | d :: outer =>
    let b := { b with pending := outer }
    match b.sequence? with
    | some elements => b.setSequence (d.close span :: elements)
    | none => b
  | [] => b.misplaced .endDivergenceOutsideDivergence span

def apply (b : Build) (span : Span) : Directive → Build
  | .title text => { b with title := text.map fun t => ⟨t, span⟩ }
  | .step number kind label =>
    b.push (.step { number, kind, label, actions := [], linkedFile := none, span }) "Step"
  | .transition number condition =>
    b.push (.transition { number := number.getD 0, explicit := number.isSome, condition, span })
      "Transition"
  | .jump target => b.push (.jump { target, span }) "Jump"
  | .action a => b.attach "Action" span fun s => { s with actions := s.actions ++ [⟨a, span⟩] }
  | .linkedFile file => b.attach "LinkedFile" span fun s => { s with linkedFile := some file }
  | .divergence junction => b.openDivergence junction span
  | .branch => b.openBranch span
  | .endBranch => b.endBranch span
  | .endDivergence => b.endDivergence span

def readLine (b : Build) (line : Line) : Build :=
  match Directive.ofLine line with
  | .ok (some d) => b.apply line.span d
  | .ok none => b.report (.unrecognized line.span)
  | .error fault => b.report (.directive fault)

/-- The findings in the order in which they came up, those about divergences that are still open at
the end last. -/
def allFindings (b : Build) : List ParseFinding :=
  b.findings.reverse ++ b.pending.map fun d => .nesting (.unclosed d.junction d.span)

def chart (b : Build) : Chart := Chart.numbered { title := b.title, elements := b.root.reverse }

end Build

/-! ### Reading a source -/

namespace Chart

def build (source : String) : Build := (Line.ofSource source.toList).foldl Build.readLine {}

/-- The chart a source denotes, with the warnings about it; or all diagnostics, if some are
errors. -/
def parse (source : String) : Except (List Diagnostic) (Chart × List Diagnostic) :=
  let b := build source
  Diagnostic.unlessErrors (b.allFindings.map (·.diagnostic)) b.chart

/-- A source denotes a chart exactly if nothing was found that stops the work. -/
theorem parse_eq_ok_iff {source : String} {r : Chart × List Diagnostic} :
    parse source = .ok r ↔ (∀ f ∈ (build source).allFindings, f.isFault = false) ∧
      r = ((build source).chart, (build source).allFindings.map (·.diagnostic)) := by
  simp [parse, Diagnostic.unlessErrors_eq_ok_iff]

end Chart

end SequentialChart
