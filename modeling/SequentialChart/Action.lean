import SequentialChart.Text.Ascii

/-!
# Actions

An action drives an output variable while its step is active, in the way its qualifier says. It may
be guarded by a condition, and some qualifiers count the time since the step was entered.

## Main definitions

* `Qualifier`, `Qualifier.code`, `Qualifier.read?`.
* `Qualifier.isTimed`, `Qualifier.isStored`.
* `Action`, `Action.guard?`.
-/

namespace SequentialChart

inductive Qualifier where
  | nonStored
  | set
  | reset
  | limited
  | delayed
  /-- For the first moment of the activation. -/
  | pulse
  /-- From when the duration has passed, until a reset. -/
  | setDelayed
  | delayedSet
  /-- Sets the variable while the duration has not passed. -/
  | setLimited
  deriving DecidableEq, Repr, Inhabited

namespace Qualifier

open Text

def code : Qualifier → String
  | nonStored => "N"
  | set => "S"
  | reset => "R"
  | limited => "L"
  | delayed => "D"
  | pulse => "P"
  | setDelayed => "SD"
  | delayedSet => "DS"
  | setLimited => "SL"

def all : List Qualifier :=
  [nonStored, set, reset, limited, delayed, pulse, setDelayed, delayedSet, setLimited]

/-- The words that may be written instead of the letters, in upper case. -/
def aliases : List (String × Qualifier) :=
  [("NORMAL", nonStored), ("CONTINUOUS", nonStored), ("SET", set), ("STORED", set),
   ("RESET", reset), ("LIMITED", limited), ("DELAYED", delayed), ("TEMPORAL", delayed),
   ("PULSE", pulse)]

def ofCode? (code : String) : Option Qualifier := all.find? (·.code = code)

/-- The qualifier that a text names, by its letters or by a word, in either case and with blanks
around it. -/
def read? (s : List Char) : Option Qualifier :=
  let word := String.ofList (upper (trim s))
  match ofCode? word with
  | some q => some q
  | none => aliases.lookup word

def unknownMessage (text : String) : String := "unknown action qualifier `" ++ text ++ "`"

def isTimed : Qualifier → Bool
  | limited | delayed | setDelayed | delayedSet | setLimited => true
  | _ => false

def isStored : Qualifier → Bool
  | set | setDelayed | delayedSet | setLimited => true
  | _ => false

@[simp] theorem ofCode?_code (q : Qualifier) : ofCode? q.code = some q := by
  cases q <;> decide

theorem mem_all (q : Qualifier) : q ∈ all := by cases q <;> decide

end Qualifier

structure Action where
  name : String
  qualifier : Qualifier := .nonStored
  condition : Option String := none
  /-- The duration in seconds. -/
  duration : Option Float := none

/-- The condition, unless it is blank. -/
def Action.guard? (a : Action) : Option String :=
  a.condition.filter fun c => !(Text.trim c.toList).isEmpty

end SequentialChart
