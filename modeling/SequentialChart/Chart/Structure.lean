import SequentialChart.Chart.Build

/-!
# The structure of a chart

A chart that has been read need not make sense. The rules that its structure has to follow are
checked in document order, every branch after the divergence that it belongs to.

* An AND divergence follows a transition, and its end is followed by one; an OR divergence follows a
  step, and a transition after its end is redundant.
* A divergence has at least two branches. AND branches begin and end with a step; OR branches begin
  and end with a transition, or end with a transition and a jump.
* Nothing follows a jump; two steps or two transitions in a row are suspicious; the chart begins
  with a step.
* Step numbers are unique, and so are the transition numbers that are written in the source. A jump
  leads to a step that stands above it.
* At least one step is initial.

## Main definitions

* `StructureFinding`, `StructureFinding.severity`, `StructureFinding.diagnostic`.
* `Chart.structureFindings` — all findings about a chart.
* `Chart.validate`, `Chart.check` — the same as diagnostics.
-/

namespace SequentialChart

/-! ### Findings -/

/-- The way from the root to a sequence: for each divergence on the way, the index of the branch. -/
abbrev SequencePath := List Nat

/-- The indices behind the word `root`, with points between them. -/
def SequencePath.text (path : SequencePath) : String :=
  path.foldl (fun s i => s ++ "." ++ Nat.repr i) "root"

structure Mention where
  kind : ElementKind
  span : Span
  deriving DecidableEq

def Element.mention (e : Element) : Mention := ⟨e.kind, e.span⟩

inductive StructureFinding where
  | startsWithout (first : Mention)
  | afterJump (element : Mention) (jump : Span)
  | consecutive (second first : Mention)
  | duplicateStep (number : Nat) (place first : Span)
  | duplicateTransition (number : Nat) (place first : Span)
  /-- A jump to a step that does not stand above it; it may stand below. -/
  | unknownTarget (target : Nat) (place : Span) (isBelow : Bool)
  | andWithoutTransitionBefore (place : Span)
  | andWithoutTransitionAfter (next : Mention) (convergence : Span)
  | orWithoutStepBefore (place : Span)
  | redundantTransition (next convergence : Span)
  | tooFewBranches (junction : Junction) (count : Nat) (place : Span)
  | branchStart (junction : Junction) (index : Nat) (first : Mention)
  | branchEnd (junction : Junction) (index : Nat) (last : Mention)
  | emptyBranch (junction : Junction) (index : Nat) (place : Span)
  | noInitialStep
  deriving DecidableEq

namespace StructureFinding

def severity : StructureFinding → Severity
  | consecutive .. | redundantTransition .. | noInitialStep => .warning
  | _ => .error

def code : StructureFinding → Code
  | startsWithout .. => .e214
  | afterJump .. => .e213
  | consecutive .. => .e207
  | duplicateStep .. => .e208
  | duplicateTransition .. => .e209
  | unknownTarget .. => .e210
  | andWithoutTransitionBefore .. => .e200
  | andWithoutTransitionAfter .. => .e205
  | orWithoutStepBefore .. => .e201
  | redundantTransition .. => .e206
  | tooFewBranches .. => .e204
  | branchStart .and .. | branchEnd .and .. | emptyBranch .and .. => .e202
  | branchStart .or .. | branchEnd .or .. | emptyBranch .or .. => .e203
  | noInitialStep => .e211

/-- The kind of element that the branches of a divergence begin and end with. -/
def branchBound : Junction → ElementKind
  | .and => .step
  | .or => .transition

def message : StructureFinding → String
  | startsWithout first => "chart starts with a " ++ first.kind.text
  | afterJump element _ => element.kind.text ++ " after a jump is unreachable"
  | consecutive second _ => "two " ++ second.kind.text ++ "s in a row"
  | duplicateStep number _ _ => "step " ++ Nat.repr number ++ " is declared more than once"
  | duplicateTransition number _ _ =>
    "transition T" ++ Nat.repr number ++ " is numbered more than once"
  | unknownTarget target _ _ => "jump target step " ++ Nat.repr target ++ " is not declared above"
  | andWithoutTransitionBefore _ => "AND divergence must follow a transition"
  | andWithoutTransitionAfter _ _ => "AND convergence must be followed by a transition"
  | orWithoutStepBefore _ => "OR divergence must follow a step"
  | redundantTransition _ _ => "transition after an OR convergence is redundant"
  | tooFewBranches junction count _ =>
    junction.text ++ " divergence has " ++ Nat.repr count ++ " branch(es), at least 2 are required"
  | branchStart junction index first =>
    junction.text ++ " branch " ++ Nat.repr index ++ " starts with a " ++ first.kind.text
  | branchEnd junction index last =>
    junction.text ++ " branch " ++ Nat.repr index ++ " ends with a " ++ last.kind.text
  | emptyBranch junction index _ => junction.text ++ " branch " ++ Nat.repr index ++ " is empty"
  | noInitialStep => "chart has no initial step"

def labels : StructureFinding → List Label
  | startsWithout first => [⟨first.span, "expected a step here", true⟩]
  | afterJump element jump =>
    [⟨element.span, "nothing connects into this", true⟩,
     ⟨jump, "the sequence ends at this jump", false⟩]
  | consecutive second first =>
    [⟨second.span, "second " ++ second.kind.text, true⟩,
     ⟨first.span, "first " ++ second.kind.text, false⟩]
  | duplicateStep _ place first =>
    [⟨place, "duplicate step", true⟩, ⟨first, "first declared here", false⟩]
  | duplicateTransition _ place first =>
    [⟨place, "duplicate transition number", true⟩, ⟨first, "first used here", false⟩]
  | unknownTarget _ place _ => [⟨place, "unknown jump target", true⟩]
  | andWithoutTransitionBefore place => [⟨place, "parallel branches start here", true⟩]
  | andWithoutTransitionAfter next convergence =>
    [⟨next.span, next.kind.text ++ " follows the convergence", true⟩,
     ⟨convergence, "branches converge here", false⟩]
  | orWithoutStepBefore place => [⟨place, "alternative branches start here", true⟩]
  | redundantTransition next convergence =>
    [⟨next, "redundant transition", true⟩, ⟨convergence, "branches converge here", false⟩]
  | tooFewBranches _ _ place => [⟨place, "divergence declared here", true⟩]
  | branchStart junction _ first =>
    [⟨first.span, "branch must start with a " ++ (branchBound junction).text, true⟩]
  | branchEnd junction _ last =>
    [⟨last.span, "branch must end with a " ++ (branchBound junction).text, true⟩]
  | emptyBranch _ _ place => [⟨place, "empty branch", true⟩]
  | noInitialStep => []

def help : StructureFinding → Option String
  | consecutive second _ =>
    if second.kind = .step then some "steps are normally separated by a transition"
    else some "transitions are normally separated by a step"
  | duplicateStep .. => some "give each step a unique number"
  | unknownTarget target _ isBelow =>
    if isBelow then
      some ("step " ++ Nat.repr target ++
        " is declared below this jump; jumps can only target steps declared above them")
    else some ("no step " ++ Nat.repr target ++ " exists in this chart")
  | andWithoutTransitionBefore _ =>
    some "all branches start together when a single transition fires"
  | andWithoutTransitionAfter _ _ =>
    some "add the transition that fires once every branch has completed"
  | orWithoutStepBefore _ => some "each branch opens with its own transition out of one step"
  | redundantTransition _ _ => some "OR branches already end with their own transitions"
  | branchEnd .and _ ⟨.transition, _⟩ =>
    some "move the synchronizing transition after `EndDivergence`"
  | noInitialStep => some "mark the starting step with `(Initial)`; no step is active at start"
  | _ => none

/-- The finding as a diagnostic, about the sequence at `path` or about the whole chart. -/
def diagnostic (f : StructureFinding) (path : Option SequencePath) : Diagnostic where
  severity := f.severity
  code := some f.code
  message := f.message
  labels := f.labels
  help := f.help
  path := path.map SequencePath.text

end StructureFinding

/-- A finding together with the sequence that it is about; the last rule is about the whole
chart. -/
structure PlacedFinding where
  finding : StructureFinding
  path : Option SequencePath
  deriving DecidableEq

def PlacedFinding.diagnostic (f : PlacedFinding) : Diagnostic := f.finding.diagnostic f.path

/-! ### The rules -/

/-- The step numbers and the written transition numbers above a place in the chart, each with its
first occurrence. -/
structure Ledger where
  steps : List (Nat × Span) := []
  transitions : List (Nat × Span) := []

namespace Ledger

def declare (l : Ledger) (s : Step) : List StructureFinding × Ledger :=
  match l.steps.lookup s.number with
  | some first => ([.duplicateStep s.number s.span first], l)
  | none => ([], { l with steps := (s.number, s.span) :: l.steps })

/-- Enters a transition if its number is written in the source; the number may be taken. -/
def enter (l : Ledger) (t : Transition) : List StructureFinding × Ledger :=
  if t.explicit then
    match l.transitions.lookup t.number with
    | some first => ([.duplicateTransition t.number t.span first], l)
    | none => ([], { l with transitions := (t.number, t.span) :: l.transitions })
  else ([], l)

/-- Follows a jump; `allSteps` are the numbers of all steps of the chart. -/
def follow (l : Ledger) (allSteps : List Nat) (j : Jump) : List StructureFinding :=
  match l.steps.lookup j.target with
  | some _ => []
  | none => [.unknownTarget j.target j.span (allSteps.contains j.target)]

end Ledger

def consecutiveFindings (previous : Option Element) (e : Element) : List StructureFinding :=
  match previous with
  | some p => if p.kind = e.kind then [.consecutive e.mention p.mention] else []
  | none => []

/-- An element after a jump. -/
def reachFindings (previous : Option Element) (e : Element) : List StructureFinding :=
  match previous with
  | some (.jump j) => [.afterJump e.mention j.span]
  | _ => []

/-- What stands around a divergence in its own sequence. -/
def placementFindings (junction : Junction) (span endSpan : Span) (previous next : Option Element) :
    List StructureFinding :=
  match junction with
  | .and =>
    (if previous.any Element.isTransition then [] else [.andWithoutTransitionBefore span]) ++
      match next with
      | some e =>
        if e.isStep || e.isJump then [.andWithoutTransitionAfter e.mention endSpan] else []
      | none => []
  | .or =>
    (if previous.any Element.isStep then [] else [.orWithoutStepBefore span]) ++
      match next with
      | some e => if e.isTransition then [.redundantTransition e.span endSpan] else []
      | none => []

def countFindings (junction : Junction) (count : Nat) (span : Span) : List StructureFinding :=
  if count < 2 then [.tooFewBranches junction count span] else []

/-- Whether a sequence ends with a transition and a jump. -/
def closesWithJump (elements : List Element) : Bool :=
  elements.getLast?.any Element.isJump && elements.dropLast.getLast?.any Element.isTransition

def boundFindings (junction : Junction) (index : Nat) (b : Branch) : List StructureFinding :=
  let bound := StructureFinding.branchBound junction
  match b.elements.head?, b.elements.getLast? with
  | some first, some last =>
    (if first.kind = bound then [] else [.branchStart junction index first.mention]) ++
      if last.kind = bound || (junction = .or && closesWithJump b.elements) then []
      else [.branchEnd junction index last.mention]
  | _, _ => [.emptyBranch junction index b.span]

mutual

/-- The findings about an element between two others and, if it is a divergence, about what is in
it. -/
def Element.check (allSteps : List Nat) (path : SequencePath) (previous next : Option Element)
    (ledger : Ledger) : Element → List PlacedFinding × Ledger
  | .step s =>
    let (found, ledger) := ledger.declare s
    ((consecutiveFindings previous (.step s) ++ found).map (⟨·, some path⟩), ledger)
  | .transition t =>
    let (found, ledger) := ledger.enter t
    ((consecutiveFindings previous (.transition t) ++ found).map (⟨·, some path⟩), ledger)
  | .jump j => ((ledger.follow allSteps j).map (⟨·, some path⟩), ledger)
  | .divergence junction branches span endSpan =>
    let own := placementFindings junction span endSpan previous next ++
      countFindings junction branches.length span
    let (found, ledger) := Branch.checkAll allSteps path junction 0 ledger branches
    (own.map (⟨·, some path⟩) ++ found, ledger)

def Element.checkAll (allSteps : List Nat) (path : SequencePath) (previous : Option Element)
    (ledger : Ledger) : List Element → List PlacedFinding × Ledger
  | [] => ([], ledger)
  | e :: es =>
    let reach := (reachFindings previous e).map (⟨·, some path⟩)
    let (own, ledger) := e.check allSteps path previous es.head? ledger
    let (found, ledger) := Element.checkAll allSteps path (some e) ledger es
    (reach ++ own ++ found, ledger)

def Branch.check (allSteps : List Nat) (path : SequencePath) (junction : Junction) (index : Nat)
    (ledger : Ledger) : Branch → List PlacedFinding × Ledger
  | .mk elements span =>
    let path := path ++ [index]
    let own := (boundFindings junction index (.mk elements span)).map (⟨·, some path⟩)
    let (found, ledger) := Element.checkAll allSteps path none ledger elements
    (own ++ found, ledger)

def Branch.checkAll (allSteps : List Nat) (path : SequencePath) (junction : Junction) (index : Nat)
    (ledger : Ledger) : List Branch → List PlacedFinding × Ledger
  | [] => ([], ledger)
  | b :: bs =>
    let (own, ledger) := b.check allSteps path junction index ledger
    let (found, ledger) := Branch.checkAll allSteps path junction (index + 1) ledger bs
    (own ++ found, ledger)

end

namespace Chart

def hasInitial (c : Chart) : Bool := c.steps.any (·.kind = .initial)

/-- The first element of the chart, if it is no step. -/
def startFindings (c : Chart) : List StructureFinding :=
  match c.elements.head? with
  | some e => if e.isStep then [] else [.startsWithout e.mention]
  | none => []

def structureFindings (c : Chart) : List PlacedFinding :=
  c.startFindings.map (⟨·, some []⟩) ++
    (Element.checkAll (c.steps.map (·.number)) [] none {} c.elements).1 ++
    if c.hasInitial then [] else [⟨.noInitialStep, none⟩]

def validate (c : Chart) : List Diagnostic := c.structureFindings.map (·.diagnostic)

/-- The chart a source denotes, if it follows the rules, with the warnings about it; or all
diagnostics, if some are errors. -/
def check (source : String) : Except (List Diagnostic) (Chart × List Diagnostic) := do
  let (chart, warnings) ← parse source
  Diagnostic.unlessErrors (warnings ++ chart.validate) chart

end Chart

@[simp] theorem PlacedFinding.isError_diagnostic (f : PlacedFinding) :
    f.diagnostic.isError = (f.finding.severity == .error) := rfl

theorem Chart.check_eq_ok_iff {source : String} {r : Chart × List Diagnostic} :
    Chart.check source = .ok r ↔
      ∃ c warnings, Chart.parse source = .ok (c, warnings) ∧
        (∀ d ∈ warnings ++ c.validate, d.isError = false) ∧ r = (c, warnings ++ c.validate) := by
  cases h : Chart.parse source with
  | error => simp [check, h, bind, Except.bind]
  | ok a =>
    obtain ⟨c, warnings⟩ := a
    simp [check, h, bind, Except.bind, Diagnostic.unlessErrors_eq_ok_iff, and_assoc]

end SequentialChart
