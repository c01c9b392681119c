import SequentialChart.Directive.Basic

/-!
# Charts

A chart is a sequence of elements: steps, transitions between them, jumps back to a step, and
divergences, whose branches are sequences again.

## Main definitions

* `Step`, `Transition`, `Jump`, `Element`, `Branch`, `Chart`.
* `ElementKind`, `Element.kind`, `Element.span`.
* `Element.walk`, `Branch.walkAll`, `Chart.walk` — all elements in document order.
-/

namespace SequentialChart

structure Step where
  number : Nat
  kind : StepKind
  label : Option String
  actions : List (Located Action)
  linkedFile : Option String
  span : Span

structure Transition where
  number : Nat
  /-- Whether the number is written in the source. -/
  explicit : Bool
  condition : String
  span : Span

structure Jump where
  target : Nat
  span : Span

mutual

inductive Element where
  | step (s : Step)
  | transition (t : Transition)
  | jump (j : Jump)
  /-- The branches between the lines at `span` and `endSpan`. -/
  | divergence (junction : Junction) (branches : List Branch) (span endSpan : Span)

/-- A sequence within a divergence, which begins with the line at `span`. -/
inductive Branch where
  | mk (elements : List Element) (span : Span)

end

structure Chart where
  title : Option (Located String)
  elements : List Element

inductive ElementKind where
  | step
  | transition
  | jump
  | divergence (junction : Junction)
  deriving DecidableEq, Repr

def ElementKind.text : ElementKind → String
  | step => "step"
  | transition => "transition"
  | jump => "jump"
  | divergence junction => junction.text ++ " divergence"

namespace Branch

def elements : Branch → List Element
  | mk elements _ => elements

def span : Branch → Span
  | mk _ span => span

@[simp] theorem elements_mk (es : List Element) (s : Span) : (mk es s).elements = es := rfl

@[simp] theorem span_mk (es : List Element) (s : Span) : (mk es s).span = s := rfl

end Branch

namespace Element

def kind : Element → ElementKind
  | step _ => .step
  | transition _ => .transition
  | jump _ => .jump
  | divergence junction _ _ _ => .divergence junction

/-- Where the element is written; for a divergence, its first line. -/
def span : Element → Span
  | step s => s.span
  | transition t => t.span
  | jump j => j.span
  | divergence _ _ span _ => span

def isStep : Element → Bool
  | step _ => true
  | _ => false

def isTransition : Element → Bool
  | transition _ => true
  | _ => false

def isJump : Element → Bool
  | jump _ => true
  | _ => false

def step? : Element → Option Step
  | step s => some s
  | _ => none

def transition? : Element → Option Transition
  | transition t => some t
  | _ => none

def jump? : Element → Option Jump
  | jump j => some j
  | _ => none

end Element

/-! ### Document order -/

mutual

/-- The element and, if it is a divergence, all elements within it. -/
def Element.walk : Element → List Element
  | .step s => [.step s]
  | .transition t => [.transition t]
  | .jump j => [.jump j]
  | .divergence junction branches span endSpan =>
    .divergence junction branches span endSpan :: Branch.walkBranches branches

def Element.walkAll : List Element → List Element
  | [] => []
  | e :: es => e.walk ++ Element.walkAll es

def Branch.walk : Branch → List Element
  | .mk elements _ => Element.walkAll elements

def Branch.walkBranches : List Branch → List Element
  | [] => []
  | b :: bs => b.walk ++ Branch.walkBranches bs

end

@[simp] theorem Element.walkAll_append (es fs : List Element) :
    walkAll (es ++ fs) = walkAll es ++ walkAll fs := by
  induction es with
  | nil => rfl
  | cons e es ih => simp [walkAll, ih, List.append_assoc]

namespace Chart

/-- All elements in document order. -/
def walk (c : Chart) : List Element := Element.walkAll c.elements

def steps (c : Chart) : List Step := c.walk.filterMap Element.step?

def transitions (c : Chart) : List Transition := c.walk.filterMap Element.transition?

def jumps (c : Chart) : List Jump := c.walk.filterMap Element.jump?

end Chart

end SequentialChart
