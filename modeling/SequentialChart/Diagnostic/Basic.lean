import SequentialChart.Span

/-!
# Diagnostics

A diagnostic is a finding about a source: an error, which stops the work, or a warning, which does
not.

## Main definitions

* `Severity`, `Code`, `Code.description`.
* `Label`, `Diagnostic`, `Diagnostic.headline`, `Diagnostic.primarySpan?`.
* `Diagnostic.summary` — one line for a list of diagnostics.
-/

namespace SequentialChart

inductive Severity where
  | error
  | warning
  deriving DecidableEq, Repr

def Severity.text : Severity → String
  | error => "error"
  | warning => "warning"

/-- The rule that a diagnostic is about. The codes from 100 on concern directives and their nesting,
those from 200 on the structure of the chart. -/
inductive Code where
  | e100 | e101 | e102 | e103 | e104 | e105 | e106
  | e200 | e201 | e202 | e203 | e204 | e205 | e206 | e207 | e208 | e209
  | e210 | e211 | e212 | e213 | e214
  deriving DecidableEq, Repr

namespace Code

def all : List Code :=
  [e100, e101, e102, e103, e104, e105, e106, e200, e201, e202, e203, e204, e205, e206, e207, e208,
   e209, e210, e211, e212, e213, e214]

def text : Code → String
  | e100 => "E100" | e101 => "E101" | e102 => "E102" | e103 => "E103" | e104 => "E104"
  | e105 => "E105" | e106 => "E106"
  | e200 => "E200" | e201 => "E201" | e202 => "E202" | e203 => "E203" | e204 => "E204"
  | e205 => "E205" | e206 => "E206" | e207 => "E207" | e208 => "E208" | e209 => "E209"
  | e210 => "E210" | e211 => "E211" | e212 => "E212" | e213 => "E213" | e214 => "E214"

def description : Code → String
  | e100 => "malformed directive"
  | e101 => "unclosed divergence"
  | e102 => "misplaced structural directive"
  | e103 => "invalid action attribute"
  | e104 => "missing action duration"
  | e105 => "action without a step"
  | e106 => "unrecognized line"
  | e200 => "AND divergence must follow a transition"
  | e201 => "OR divergence must follow a step"
  | e202 => "invalid AND branch"
  | e203 => "invalid OR branch"
  | e204 => "too few branches"
  | e205 => "missing synchronizing transition"
  | e206 => "redundant transition"
  | e207 => "consecutive elements of the same kind"
  | e208 => "duplicate step number"
  | e209 => "duplicate transition number"
  | e210 => "undefined jump target"
  | e211 => "no initial step"
  | e212 => "unparsable condition"
  | e213 => "unreachable element"
  | e214 => "chart must start with a step"

def ofText? (s : String) : Option Code := all.find? (·.text = s)

@[simp] theorem ofText?_text (c : Code) : ofText? c.text = some c := by cases c <;> decide

end Code

/-- A remark on a place in the source. The primary labels mark what is wrong, the others what it
collides with. -/
structure Label where
  span : Span
  message : String
  isPrimary : Bool := true

structure Diagnostic where
  severity : Severity
  code : Option Code
  message : String
  labels : List Label := []
  help : Option String := none
  /-- The sequence of the chart that the finding is about. -/
  path : Option String := none

namespace Diagnostic

def isError (d : Diagnostic) : Bool := d.severity == .error

/-- Severity, code and message on one line, and the sequence if there is one. -/
def headline (d : Diagnostic) : String :=
  d.severity.text ++ (match d.code with | some c => "[" ++ c.text ++ "]" | none => "") ++ ": " ++
    d.message ++ (match d.path with | some p => " (at " ++ p ++ ")" | none => "")

def primarySpan? (d : Diagnostic) : Option Span := (d.labels.find? (·.isPrimary)).map (·.span)

/-- The first error, or else the first diagnostic, and how many more there are. -/
def summary (ds : List Diagnostic) : String :=
  match ds.find? isError <|> ds.head? with
  | none => ""
  | some first =>
    if 1 < ds.length then first.headline ++ " (+" ++ Nat.repr (ds.length - 1) ++ " more)"
    else first.headline

def unlessErrors {α : Type} (ds : List Diagnostic) (a : α) :
    Except (List Diagnostic) (α × List Diagnostic) :=
  if ds.any isError then .error ds else .ok (a, ds)

theorem unlessErrors_eq_ok_iff {α : Type} {ds : List Diagnostic} {a : α} {r : α × List Diagnostic} :
    unlessErrors ds a = .ok r ↔ (∀ d ∈ ds, d.isError = false) ∧ r = (a, ds) := by
  unfold unlessErrors
  by_cases h : ds.any isError = true
  · rw [if_pos h]
    obtain ⟨d, hd, he⟩ := List.any_eq_true.1 h
    refine ⟨(nomatch ·), fun h' => ?_⟩
    rw [h'.1 d hd] at he
    exact nomatch he
  · rw [if_neg h]
    refine ⟨fun e => ?_, fun e => by rw [e.2]⟩
    cases e
    refine ⟨fun d hd => ?_, rfl⟩
    exact Bool.eq_false_iff.2 fun he => h (List.any_eq_true.2 ⟨d, hd, he⟩)

end Diagnostic

end SequentialChart
