import SequentialChart.Action
import SequentialChart.Diagnostic.Basic

/-!
# Directives

Every line of a source that counts gives one directive: a step, a transition, a jump, something
about the step before it, or the bounds of a divergence and its branches.

## Main definitions

* `StepKind`, `Junction`, `Directive`.
* `DirectiveFault`, `DirectiveFault.diagnostic` — why a line with a known keyword gives none.
-/

namespace SequentialChart

inductive StepKind where
  | initial
  | normal
  | task
  | macroStep
  deriving DecidableEq, Repr, Inhabited

namespace StepKind

def text : StepKind → String
  | initial => "initial"
  | normal => "normal"
  | task => "task"
  | macroStep => "macro"

def all : List StepKind := [initial, normal, task, macroStep]

/-- The kind that a text names, in either case and with blanks around it; a text that names none is
given back as it was compared. -/
def read (s : List Char) : Except String StepKind :=
  let word := String.ofList (Text.lower (Text.trim s))
  match all.find? (·.text = word) with
  | some kind => .ok kind
  | none => .error word

def unknownMessage (word : String) : String := "unknown step kind `" ++ word ++ "`"

end StepKind

/-- Whether all branches are taken together or one of them is chosen. -/
inductive Junction where
  | and
  | or
  deriving DecidableEq, Repr

def Junction.text : Junction → String
  | and => "AND"
  | or => "OR"

inductive Directive where
  | title (text : Option String)
  | step (number : Nat) (kind : StepKind) (label : Option String)
  | transition (number : Option Nat) (condition : String)
  | action (action : Action)
  | linkedFile (name : String)
  | jump (target : Nat)
  | divergence (junction : Junction)
  | branch
  | endBranch
  | endDivergence

/-! ### Lines that are refused -/

inductive Usage where
  | step
  | action
  | actionName
  | jump
  | divergence
  | linkedFile
  deriving DecidableEq, Repr

def Usage.text : Usage → String
  | step => "Step <number> [(Initial|Normal|Task|Macro)] [\"label\"]"
  | action => "Action <name> [(Q)] | [(Q, \"5s\")] | [(Type=Q, Condition=\"...\", Duration=\"5s\")]"
  | actionName => "Action <name> [(attributes)]"
  | jump => "Jump <step number>"
  | divergence => "Divergence AND|OR"
  | linkedFile => "LinkedFile \"name\""

/-- Why a line with a known keyword gives no directive. Keywords are given as they were written. -/
inductive DirectiveFault where
  | malformed (keyword : String) (place : Span) (remark : String) (usage : Usage)
  | unexpectedArgument (keyword : String) (place : Span)
  | missingCondition (place : Span)
  | unknownAttribute (key : String) (place : Span)
  | tooManyAttributes (place : Span)
  | unknownQualifier (text : String) (place : Span)
  | invalidDuration (text : String) (place : Span)
  | missingDuration (name : String) (qualifier : Qualifier) (place : Span)
  deriving DecidableEq

def attributeDiagnostic (message : String) (place : Span) (help : String) : Diagnostic where
  severity := .error
  code := some .e103
  message
  labels := [{ span := place, message := "in this attribute list" }]
  help := some help

def DirectiveFault.diagnostic : DirectiveFault → Diagnostic
  | malformed keyword place remark usage =>
    { severity := .error, code := some .e100
      message := "malformed `" ++ keyword ++ "` directive"
      labels := [{ span := place, message := remark }]
      help := some ("expected `" ++ usage.text ++ "`") }
  | unexpectedArgument keyword place =>
    { severity := .error, code := some .e100
      message := "`" ++ keyword ++ "` takes no arguments"
      labels := [{ span := place, message := "unexpected argument" }] }
  | missingCondition place =>
    { severity := .error, code := some .e100
      message := "transition has no condition"
      labels := [{ span := place, message := "condition expected" }]
      help := some "write `Transition TRUE` for an unconditional transition" }
  | unknownAttribute key place =>
    attributeDiagnostic ("unknown action attribute `" ++ key ++ "`") place
      "supported attributes are `Type`, `Condition` and `Duration`"
  | tooManyAttributes place =>
    attributeDiagnostic "too many positional action attributes" place
      "use `(Q, \"duration\", \"condition\")` or the keyed form"
  | unknownQualifier text place =>
    attributeDiagnostic (Qualifier.unknownMessage text) place
      "qualifiers are N, S, R, L, D, P, SD, DS and SL"
  | invalidDuration text place =>
    attributeDiagnostic ("invalid duration `" ++ text ++ "`") place
      "write durations as `5s`, `250ms` or a number of seconds"
  | missingDuration name qualifier place =>
    { severity := .error, code := some .e104
      message := "qualifier `" ++ qualifier.code ++ "` requires a duration"
      labels := [{ span := place, message := "no duration given" }]
      help := some ("for example `Action " ++ name ++ " (" ++ qualifier.code ++ ", \"5s\")`") }

@[simp] theorem DirectiveFault.isError_diagnostic (f : DirectiveFault) : f.diagnostic.isError := by
  cases f <;> rfl

end SequentialChart
