import SequentialChart.Chart.Basic
import SequentialChart.Diagram.Basic
import SequentialChart.Diagram.Spacing

/-!
# Drawing a chart

The root sequence is stacked downwards in one column. A divergence splits its column into columns
side by side, between a bar at which the branches begin and a bar at which they end; each branch is
drawn like the root. Jumps come last: they run around the right side of everything else.

Gaps are measured from the bottom of what stands above to the top of what is placed. The first
element of a branch has a gap of its own: parallel branches begin below their bar, and the first
transitions of alternative branches stand where they would stand below the step before the bar.

## Main definitions

* `Anchor`, `Column` — a placed node as its neighbours see it, and the lower end of a column.
* `Drawing` — what has been drawn, together with the jumps that have not.
* `Element.place`, `Element.placeAll`.
* `Connection.route`, `Drawing.routeJumps` — the lines.
* `Chart.draw` — the diagram of a chart.
-/

namespace SequentialChart

variable {α : Type}

inductive AnchorKind where
  | step
  | transition
  | gate (junction : Junction)
  deriving DecidableEq, Repr

/-- A placed node, as far as its neighbours need to know it. -/
structure Anchor (α : Type) where
  id : NodeId
  bounds : Bounds α
  kind : AnchorKind

/-- The lower end of a column. -/
structure Column (α : Type) where
  centerX : α
  /-- Where the next gap begins. -/
  baseline : α
  /-- What the next element is connected with; nothing at the start of the chart and after a
  jump. -/
  previous : Option (Anchor α)
  /-- What stands above, even if a jump lies between. -/
  lastKind : Option AnchorKind
  /-- The next gap, if it does not follow from what stands above. -/
  entryGap : Option α

structure OpenJump (α : Type) where
  source : Option (Anchor α)
  target : Nat

/-- What has been drawn of a chart, in the order in which it was drawn. -/
structure Drawing (α : Type) where
  steps : List (StepNode α) := []
  transitions : List (TransitionNode α) := []
  gates : List (GateNode α) := []
  connections : List (Connection α) := []
  jumps : List (OpenJump α) := []

namespace Drawing

def append (a b : Drawing α) : Drawing α where
  steps := a.steps ++ b.steps
  transitions := a.transitions ++ b.transitions
  gates := a.gates ++ b.gates
  connections := a.connections ++ b.connections
  jumps := a.jumps ++ b.jumps

instance : Append (Drawing α) := ⟨append⟩

@[simp] theorem steps_append (a b : Drawing α) : (a ++ b).steps = a.steps ++ b.steps := rfl

@[simp] theorem transitions_append (a b : Drawing α) :
    (a ++ b).transitions = a.transitions ++ b.transitions := rfl

@[simp] theorem gates_append (a b : Drawing α) : (a ++ b).gates = a.gates ++ b.gates := rfl

@[simp] theorem connections_append (a b : Drawing α) :
    (a ++ b).connections = a.connections ++ b.connections := rfl

@[simp] theorem jumps_append (a b : Drawing α) : (a ++ b).jumps = a.jumps ++ b.jumps := rfl

end Drawing

variable [Length α]

def StepNode.anchor (s : StepNode α) : Anchor α := ⟨s.id, s.bounds, .step⟩

def TransitionNode.anchor (t : TransitionNode α) : Anchor α := ⟨t.id, t.bounds, .transition⟩

def GateNode.anchor (g : GateNode α) : Anchor α := ⟨g.id, g.bounds, .gate g.junction⟩

/-- Whether the anchor is a bar, to which lines lead at any `x`. -/
def Anchor.isGate (a : Anchor α) : Bool :=
  match a.kind with
  | .gate _ => true
  | _ => false

/-! ### Lines -/

namespace Connection

/-- The line from the bottom of one node to the top of another. It runs at the `x` of the end that
is no bar; if both ends have an `x` of their own, it shifts halfway. -/
def route (source target : Anchor α) : Connection α :=
  let startX := if source.isGate then target.bounds.centerX else source.bounds.centerX
  let endX := if target.isGate then startX else target.bounds.centerX
  let start : Point α := ⟨startX, source.bounds.bottom⟩
  let stop : Point α := ⟨endX, target.bounds.top⟩
  let middle := Length.half (start.y + stop.y)
  { source := source.id
    target := target.id
    points := if Length.same startX endX then [start, stop]
      else [start, start.withY middle, stop.withY middle, stop] }

/-- The line of a jump: down from its source, along the vertical lane at `lane`, and into its target
from above. -/
def routeJump (margin lane : α) (source target : Anchor α) : Connection α :=
  let start := source.bounds.bottomCenter
  let stop := target.bounds.topCenter
  let below := start.y + Length.half margin
  let above := stop.y - Length.half margin
  { source := source.id
    target := target.id
    points := [start, start.withY below, ⟨lane, below⟩, ⟨lane, above⟩, stop.withY above, stop] }

def routeFrom? (previous : Option (Anchor α)) (target : Anchor α) : List (Connection α) :=
  (previous.map fun source => route source target).toList

end Connection

/-! ### Columns -/

namespace Column

def follow (c : Column α) (a : Anchor α) : Column α :=
  { c with
    baseline := a.bounds.bottom, previous := some a, lastKind := some a.kind, entryGap := none }

end Column

namespace Spacing

def gateOffset (s : Spacing α) : Junction → α
  | .and => s.andGateOffset
  | .or => s.orGateOffset

def gateHeight (s : Spacing α) : Junction → α
  | .and => s.andGateHeight
  | .or => s.orGateHeight

/-- Whether parallel branches begin with the element. -/
def opensParallel : Option Element → Bool
  | some (.divergence .and ..) => true
  | _ => false

/-- The gap above an element that follows a node of kind `last`. -/
def gapBefore (s : Spacing α) (last : Option AnchorKind) (e : Element) (next : Option Element) :
    α :=
  match e.kind with
  | .divergence junction => s.gateOffset junction
  | kind =>
    match last with
    | none => Length.ofNat 0
    | some .step =>
      if kind = .transition && opensParallel next then s.stepToTransitionCompressed
      else s.stepToTransition
    | some .transition => s.transitionToStep
    | some (.gate .and) => s.andPostConvergence
    | some (.gate .or) => s.orPostConvergence

/-- The middles of columns of the given widths side by side, the first column beginning at
`left`. -/
def centersFrom (s : Spacing α) (left : α) : List α → List α
  | [] => []
  | w :: ws => (left + Length.half w) :: s.centersFrom (left + (w + s.branchSpacing)) ws

/-- The middles of columns of the given widths, placed so that the outermost middles lie at equal
distances from `centerX`. -/
def branchCenters (s : Spacing α) (centerX : α) (widths : List α) : List α :=
  let centers := s.centersFrom (Length.ofNat 0) widths
  match centers.head?, centers.getLast? with
  | some first, some last =>
    let shift := centerX - Length.half (first + last)
    centers.map (· + shift)
  | _, _ => centers

def gateWidth (s : Spacing α) (centers : List α) : α :=
  let span := match centers.head?, centers.getLast? with
    | some first, some last => last - first
    | _, _ => Length.ofNat 0
  span + s.gateMargin

def divergenceWidth (s : Spacing α) (widths : List α) : α :=
  let columns := widths.foldl (· + ·) (Length.ofNat 0) +
    Length.scale (widths.length - 1) s.branchSpacing
  Length.larger columns (s.gateWidth (s.branchCenters (Length.ofNat 0) widths))

end Spacing

/-! ### Widths -/

mutual

def Element.width (s : Spacing α) : Element → α
  | .step _ => s.stepWidth
  | .transition _ => s.transitionWidth
  | .jump _ => Length.ofNat 0
  | .divergence _ branches _ _ => s.divergenceWidth (Branch.widths s branches)

/-- The width of the column that a sequence needs, beside something of the width `least`. -/
def Element.widthAll (s : Spacing α) (least : α) : List Element → α
  | [] => least
  | e :: es => Element.widthAll s (Length.larger least (e.width s)) es

def Branch.width (s : Spacing α) : Branch → α
  | .mk elements _ => Element.widthAll s (Length.ofNat 0) elements

def Branch.widths (s : Spacing α) : List Branch → List α
  | [] => []
  | b :: bs => b.width s :: Branch.widths s bs

end

/-! ### Placement -/

def Step.node (s : Spacing α) (centerX top : α) (step : Step) : StepNode α where
  number := step.number
  kind := step.kind
  label := step.label
  position := ⟨centerX - Length.half s.stepWidth, top⟩
  size := ⟨s.stepWidth, s.stepHeight⟩
  actions := step.actions.map (·.value)
  linkedFile := step.linkedFile

def Transition.node (s : Spacing α) (centerX top : α) (t : Transition) : TransitionNode α where
  number := t.number
  condition := t.condition
  position := ⟨centerX - Length.half s.transitionWidth, top⟩
  size := ⟨s.transitionWidth, s.transitionHeight⟩

structure BranchEnd (α : Type) where
  bottom : α
  /-- What leads to the end of the divergence; nothing, if the branch ends with a jump. -/
  last : Option (Anchor α)

/-- The column after the gap above an element, and the top of that element. -/
def Column.enter (s : Spacing α) (c : Column α) (e : Element) (next : Option Element) :
    Column α × α :=
  let gap := c.entryGap.getD (s.gapBefore c.lastKind e next)
  ({ c with entryGap := none }, c.baseline + gap)

def gateSize (s : Spacing α) (junction : Junction) (widths : List α) (centerX : α) : Size α :=
  ⟨s.gateWidth (s.branchCenters centerX widths), s.gateHeight junction⟩

/-- The start of a branch below the bar `opening`, in the column `c` of which the bar stands. -/
def Column.branch (s : Spacing α) (c : Column α) (junction : Junction) (opening : Anchor α)
    (centerX : α) : Column α :=
  let (baseline, gap) := match junction with
    | .and => (opening.bounds.bottom, s.transitionToStep)
    | .or => (c.baseline, Length.larger s.stepToTransition (opening.bounds.bottom - c.baseline))
  { centerX, baseline, previous := some opening, lastKind := some opening.kind,
    entryGap := some gap }

mutual

/-- Draws an element into a column; `gate` is the index of the next gate. -/
def Element.place (s : Spacing α) (c : Column α) (gate : Nat) (next : Option Element) :
    Element → Drawing α × Column α
  | .step step =>
    let (c, top) := c.enter s (.step step) next
    let node := step.node s c.centerX top
    ({ steps := [node], connections := Connection.routeFrom? c.previous node.anchor },
      c.follow node.anchor)
  | .transition t =>
    let (c, top) := c.enter s (.transition t) next
    let node := t.node s c.centerX top
    ({ transitions := [node], connections := Connection.routeFrom? c.previous node.anchor },
      c.follow node.anchor)
  | .jump j =>
    let (c, _) := c.enter s (.jump j) next
    ({ jumps := [{ source := c.previous, target := j.target }] }, { c with previous := none })
  | .divergence junction branches span endSpan =>
    let (c, top) := c.enter s (.divergence junction branches span endSpan) next
    let widths := Branch.widths s branches
    let size := gateSize s junction widths c.centerX
    let left := c.centerX - Length.half size.width
    let opening : GateNode α :=
      { index := gate, junction, mode := .divergence, branchCount := branches.length,
        position := ⟨left, top⟩, size }
    let (inner, ends) := Branch.placeAll s (c.branch s junction opening.anchor) (gate + 1) branches
      (s.branchCenters c.centerX widths)
    let bottom := ends.foldl (fun b e => Length.larger b e.bottom) opening.bounds.bottom
    let closing : GateNode α :=
      { index := gate + 1 + inner.gates.length, junction, mode := .convergence,
        branchCount := branches.length, position := ⟨left, bottom + s.gateOffset junction⟩, size }
    let before : Drawing α :=
      { gates := [opening], connections := Connection.routeFrom? c.previous opening.anchor }
    let after : Drawing α :=
      { gates := [closing]
        connections :=
          (ends.filterMap (·.last)).map fun last => Connection.route last closing.anchor }
    (before ++ inner ++ after, c.follow closing.anchor)

def Element.placeAll (s : Spacing α) (c : Column α) (gate : Nat) :
    List Element → Drawing α × Column α
  | [] => ({}, c)
  | e :: es =>
    let (first, c) := e.place s c gate es.head?
    let (rest, c) := Element.placeAll s c (gate + first.gates.length) es
    (first ++ rest, c)

def Branch.place (s : Spacing α) (c : Column α) (gate : Nat) : Branch → Drawing α × BranchEnd α
  | .mk elements _ =>
    let (drawing, c) := Element.placeAll s c gate elements
    (drawing, ⟨c.baseline, c.previous⟩)

def Branch.placeAll (s : Spacing α) (column : α → Column α) (gate : Nat) :
    List Branch → List α → Drawing α × List (BranchEnd α)
  | b :: bs, centerX :: centers =>
    let (first, firstEnd) := b.place s (column centerX) gate
    let (rest, ends) := Branch.placeAll s column (gate + first.gates.length) bs centers
    (first ++ rest, firstEnd :: ends)
  | _, _ => ({}, [])

end

/-! ### Jumps -/

inductive DrawError where
  | missingTarget (number : Nat)
  deriving DecidableEq

def DrawError.message : DrawError → String
  | missingTarget number => "jump target step " ++ Nat.repr number ++ " was never placed"

namespace Drawing

def extent? (d : Drawing α) : Option (Bounds α) :=
  Bounds.extent? (d.steps.map (·.bounds) ++ d.transitions.map (·.bounds) ++ d.gates.map (·.bounds))

def target? (d : Drawing α) (number : Nat) : Option (StepNode α) :=
  d.steps.reverse.find? (·.number = number)

/-- The lines of jumps, of which the first takes the lane at `lane`. Each further line takes a lane
half a margin to the right. A jump that nothing leads to has no line. -/
def routeJumpsFrom (d : Drawing α) (margin : α) :
    α → List (OpenJump α) → Except DrawError (List (Connection α))
  | _, [] => .ok []
  | lane, j :: js =>
    match d.target? j.target with
    | none => .error (.missingTarget j.target)
    | some target =>
      match j.source with
      | none => d.routeJumpsFrom margin lane js
      | some source => do
        let rest ← d.routeJumpsFrom margin (lane + Length.half margin) js
        return Connection.routeJump margin lane source target.anchor :: rest

/-- The lines of all jumps. Where no node has been placed, there is nothing to run around. -/
def routeJumps (d : Drawing α) (margin : α) : Except DrawError (List (Connection α)) :=
  match d.extent? with
  | none => .ok []
  | some extent => d.routeJumpsFrom margin (extent.right + margin) d.jumps

end Drawing

namespace Chart

def trunk (s : Spacing α) : Column α where
  centerX := s.originX + Length.half s.stepWidth
  baseline := s.originY
  previous := none
  lastKind := none
  entryGap := none

/-- The drawing of the chart without its jumps. -/
def drawing (c : Chart) (s : Spacing α) : Drawing α := (Element.placeAll s (trunk s) 0 c.elements).1

def draw (c : Chart) (s : Spacing α) : Except DrawError (Diagram α) := do
  let d := c.drawing s
  let jumps ← d.routeJumps s.jumpMargin
  return {
    title := c.title.map (·.value)
    steps := d.steps
    transitions := d.transitions
    gates := d.gates
    connections := d.connections ++ jumps }

end Chart

end SequentialChart
