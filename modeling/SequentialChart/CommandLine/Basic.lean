import SequentialChart.Decimal.Read
import SequentialChart.Value

/-!
# Commands

What the program can be asked to do, and the switches that say how.

## Main definitions

* `Command`, `Invocation` — what the program is asked to do.
* `Verb`, `Switch` — the words that ask for it.
* `Setting` — what a switch says, `Switch.setting` reads it.
* `UsageError` — why arguments ask for nothing that can be run.
-/

namespace SequentialChart

inductive Command where
  | check (input : String)
  /-- To draw a chart; the diagram goes to a file or is printed. -/
  | compile (input : String) (output : Option String)
  | simulate (input scenario : String) (json : Bool)
  /-- To evaluate an expression with the given values of variables, now and one tick before. -/
  | eval (expression : String) (current previous : List (String × Value))

structure Invocation where
  command : Command
  /-- The path of the configuration, if it is not at its usual place. -/
  config : Option String := none
  /-- How much is said beside the results. -/
  logLevel : String := "info"

inductive UsageError where
  | help
  | version
  | nothingAsked
  /-- There are switches, but there is no command. -/
  | missingCommand
  | unknownCommand
  | missingArgument
  | unknownArgument
  | missingValue
  | surplusValue
  | repeated
  | invalidValue (reason : String)
  deriving DecidableEq, Repr

inductive Verb where
  | check
  | compile
  | simulate
  | eval
  deriving DecidableEq, Repr

namespace Verb

def all : List Verb := [check, compile, simulate, eval]

def name : Verb → String
  | check => "check"
  | compile => "compile"
  | simulate => "simulate"
  | eval => "eval"

def ofName? (s : String) : Option Verb := all.find? (·.name = s)

/-- How many words besides switches belong to the command. -/
def arity : Verb → Nat
  | simulate => 2
  | _ => 1

@[simp] theorem ofName?_name (v : Verb) : ofName? v.name = some v := by cases v <;> decide

end Verb

inductive Switch where
  | help
  | version
  | config
  | logLevel
  | output
  | json
  | set
  | previous
  deriving DecidableEq, Repr

namespace Switch

def long : Switch → String
  | help => "help"
  | version => "version"
  | config => "config"
  | logLevel => "log-level"
  | output => "output"
  | json => "json"
  | set => "set"
  | previous => "previous"

def short? : Switch → Option Char
  | help => some 'h'
  | version => some 'V'
  | config => some 'c'
  | output => some 'o'
  | set => some 's'
  | previous => some 'p'
  | logLevel | json => none

def takesValue : Switch → Bool
  | help | version | json => false
  | _ => true

def isRepeatable : Switch → Bool
  | set | previous => true
  | _ => false

/-- The switches that are known before the verb, or after it. -/
def known : Option Verb → List Switch
  | none => [help, version, config, logLevel]
  | some .check => [help, config, logLevel]
  | some .compile => [help, config, logLevel, output]
  | some .simulate => [help, config, logLevel, json]
  | some .eval => [help, config, logLevel, set, previous]

end Switch

inductive Setting where
  | config (path : String)
  | logLevel (level : String)
  | output (path : String)
  | json
  | current (name : String) (value : Value)
  | previous (name : String) (value : Value)

def Setting.switch : Setting → Switch
  | config _ => .config
  | logLevel _ => .logLevel
  | output _ => .output
  | json => .json
  | current _ _ => .set
  | previous _ _ => .previous

/-- A truth value or a number, in letters of either case. -/
def Value.read? (s : List Char) : Option Value :=
  if Text.sameWord s "true".toList then some (.bool true)
  else if Text.sameWord s "false".toList then some (.bool false)
  else (Decimal.readFloat s).map .number

/-- The name and the value on the two sides of the first equals sign, or what is wrong with the
text. -/
def readAssignment (text : String) : Except String (String × Value) :=
  let s := text.toList
  match s.dropWhile (· ≠ '=') with
  | [] => .error ("expected NAME=VALUE, got `" ++ text ++ "`")
  | _ :: value =>
    let name := Text.trim (s.takeWhile (· ≠ '='))
    if name = [] then .error ("missing variable name in `" ++ text ++ "`")
    else
      match Value.read? (Text.trim value) with
      | some v => .ok (String.ofList name, v)
      | none => .error ("`" ++ String.ofList value ++ "` is neither a boolean nor a number")

def Switch.setting (switch : Switch) (value : String) : Except UsageError Setting :=
  match switch with
  | help => .error .help
  | version => .error .version
  | config => .ok (.config value)
  | logLevel => .ok (.logLevel value)
  | output => .ok (.output value)
  | json => .ok .json
  | set => ((readAssignment value).map fun (name, v) => .current name v).mapError .invalidValue
  | previous =>
    ((readAssignment value).map fun (name, v) => .previous name v).mapError .invalidValue

end SequentialChart
