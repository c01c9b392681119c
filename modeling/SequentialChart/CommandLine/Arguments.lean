import SequentialChart.CommandLine.Basic

/-!
# Arguments

How the arguments of the program are read: one after the other, first up to the verb and then after
it.

A switch stands after two hyphens by its name, or after one hyphen by its letter; several letters
may stand together. Its value is the next argument, or follows at once, after a name with an equals
sign and after a letter with or without one. After a lone double hyphen no argument is a switch. A
switch is settled when the next one comes, or the next word, or the end; only then is its value
looked at.

## Main definitions

* `Reading` — the arguments read so far; `Reading.take` reads one more.
* `Invocation.ofArguments` — what all the arguments ask for.
-/

namespace SequentialChart

/-- The arguments read so far, before the verb or after it. -/
structure Reading where
  words : List String := []
  settings : List Setting := []
  /-- The last switch, if it is not settled yet, and its value, if it has come. -/
  pending : Option (Switch × Option String) := none
  /-- Whether a lone double hyphen has come. -/
  literal : Bool := false

namespace Reading

def awaitsValue (r : Reading) : Bool := r.pending.any (·.2.isNone)

def record (r : Reading) (switch : Switch) (value : String) : Except UsageError Reading :=
  if !switch.isRepeatable && r.settings.any (·.switch = switch) then .error .repeated
  else (switch.setting value).map fun s => { r with settings := r.settings ++ [s] }

def settle (r : Reading) : Except UsageError Reading :=
  match r.pending with
  | none => .ok r
  | some (_, none) => .error .missingValue
  | some (switch, some value) => { r with pending := none }.record switch value

def attach (r : Reading) (switch : Switch) (value : String) : Except UsageError Reading := do
  (← r.settle).record switch value

def await (r : Reading) (switch : Switch) : Except UsageError Reading := do
  return { ← r.settle with pending := some (switch, none) }

def takeLong (verb : Option Verb) (r : Reading) (name : List Char) (value : Option (List Char)) :
    Except UsageError Reading :=
  match (Switch.known verb).find? (·.long.toList = name), value with
  | none, _ => .error .unknownArgument
  | some switch, some v =>
    if switch.takesValue then r.attach switch (String.ofList v) else .error .surplusValue
  | some switch, none => if switch.takesValue then r.await switch else r.attach switch ""

def takeShort (verb : Option Verb) : Reading → List Char → Except UsageError Reading
  | r, [] => .ok r
  | r, c :: s =>
    match (Switch.known verb).find? (·.short? = some c) with
    | none => .error .unknownArgument
    | some switch =>
      if !switch.takesValue then do takeShort verb (← r.attach switch "") s
      else
        match s with
        | [] => r.await switch
        | '=' :: v => r.attach switch (String.ofList v)
        | v => r.attach switch (String.ofList v)

/-- Takes a word. Before the verb there is no room for any, and a word that would be the verb but
for the double hyphen counts as a misplaced argument. -/
def takeWord (verb : Option Verb) (r : Reading) (word : String) : Except UsageError Reading :=
  match verb with
  | none =>
    .error <|
      if r.literal && (word = "help" || (Verb.ofName? word).isSome) then .unknownArgument
      else .unknownCommand
  | some v =>
    if r.words.length < v.arity then
      r.settle.map fun r => { r with words := r.words ++ [word] }
    else .error .unknownArgument

def take (verb : Option Verb) (r : Reading) (argument : String) : Except UsageError Reading :=
  if r.literal then r.takeWord verb argument
  else
    match argument.toList, r.pending with
    | ['-', '-'], _ => .ok { r with literal := true }
    | '-' :: '-' :: s, _ =>
      r.takeLong verb (s.takeWhile (· ≠ '=')) ((s.dropWhile (· ≠ '=')).tail?)
    | '-' :: c :: s, _ => r.takeShort verb (c :: s)
    | _, some (switch, none) => .ok { r with pending := some (switch, some argument) }
    | _, _ => r.takeWord verb argument

def setting? {α : Type} (r : Reading) (choose : Setting → Option α) : Option α :=
  r.settings.findSome? choose

def config? (r : Reading) : Option String :=
  r.setting? fun
    | .config path => some path
    | _ => none

def logLevel? (r : Reading) : Option String :=
  r.setting? fun
    | .logLevel level => some level
    | _ => none

def command (r : Reading) : Verb → Except UsageError Command
  | .check =>
    match r.words with
    | [input] => .ok (.check input)
    | _ => .error .missingArgument
  | .compile =>
    let output := r.setting? fun
      | .output path => some path
      | _ => none
    match r.words with
    | [input] => .ok (.compile input output)
    | _ => .error .missingArgument
  | .simulate =>
    match r.words with
    | [input, scenario] => .ok (.simulate input scenario (r.settings.any (·.switch = .json)))
    | _ => .error .missingArgument
  | .eval =>
    let current := r.settings.filterMap fun
      | .current name value => some (name, value)
      | _ => none
    let previous := r.settings.filterMap fun
      | .previous name value => some (name, value)
      | _ => none
    match r.words with
    | [expression] => .ok (.eval expression current previous)
    | _ => .error .missingArgument

end Reading

def Verb.readRest (verb : Verb) (arguments : List String) :
    Except UsageError (Command × Reading) := do
  let r ← (← arguments.foldlM (Reading.take (some verb)) {}).settle
  return (← r.command verb, r)

/-- What comes of a request for help: only a verb, or help itself, can be explained. -/
def helpOn : List String → UsageError
  | [] => .help
  | [word] => if word = "help" ∨ (Verb.ofName? word).isSome then .help else .unknownCommand
  | _ => .unknownCommand

/-- What the rest of the arguments asks for. A switch after the verb goes before one in front of
it. -/
def Reading.readFrom : Reading → List String → Except UsageError Invocation
  | r, [] => do
    let r ← r.settle
    .error (if r.settings.isEmpty then .nothingAsked else .missingCommand)
  | r, argument :: arguments =>
    if r.literal || r.awaitsValue then do readFrom (← r.take none argument) arguments
    else if argument = "help" then .error (helpOn arguments)
    else
      match Verb.ofName? argument with
      | none => do readFrom (← r.take none argument) arguments
      | some verb => do
        let (command, inner) ← verb.readRest arguments
        let outer ← r.settle
        return {
          command
          config := inner.config? <|> outer.config?
          logLevel := (inner.logLevel? <|> outer.logLevel?).getD "info" }

def Invocation.ofArguments (arguments : List String) : Except UsageError Invocation :=
  Reading.readFrom {} arguments

end SequentialChart
