import SequentialChart.CommandLine.Run

/-!
# The program

Reads the arguments, runs the command on the files of the system and prints what comes of it.
Results go to the standard output, everything else to the standard error.

## Main definitions

* `UsageError.message` — what is said about arguments that ask for nothing that can be run.
* `main`.
-/

namespace SequentialChart

def usage : String :=
  "Usage: grafcet [OPTIONS] <COMMAND>

Commands:
  check <INPUT>                            Report everything that is wrong with a chart
  compile <INPUT> [-o <OUTPUT>]            Draw a chart and write the diagram as JSON
  simulate <INPUT> <SCENARIO> [--json]     Run a scenario on a chart
  eval <EXPRESSION> [-s <NAME=VALUE>] [-p <NAME=VALUE>]
                                           Evaluate an expression

Options:
  -c, --config <CONFIG>        Path of the configuration
      --log-level <LOG_LEVEL>  How much is said: off, error, warn, info, debug or trace
  -h, --help                   Print help
  -V, --version                Print version
"

def UsageError.message : UsageError → String
  | help | nothingAsked => usage
  | version => "grafcet 0.1.0\n"
  | missingCommand => "error: a command is missing\n"
  | unknownCommand => "error: there is no such command\n"
  | missingArgument => "error: an argument is missing\n"
  | unknownArgument => "error: an argument is not known\n"
  | missingValue => "error: an option needs a value\n"
  | surplusValue => "error: an option takes no value\n"
  | repeated => "error: an option is given twice\n"
  | invalidValue reason => "error: " ++ reason ++ "\n"

/-- Whether the arguments ask for information, and not for what cannot be done. -/
def UsageError.isRequest : UsageError → Bool
  | help | version => true
  | _ => false

def Report.line (r : Report) : String :=
  (match r.severity with
    | some severity => severity.text
    | none => "error") ++
    (match r.code with
      | some code => "[" ++ code ++ "]"
      | none => "") ++
    ": " ++ r.message ++
    (match r.help with
      | some help => " (" ++ help ++ ")"
      | none => "")

/-- How many kinds of messages a level lets through: none, errors, or warnings as well. A level that
is not known counts as the one for warnings. -/
def verbosity (level : String) : Nat :=
  if level.toLower = "off" then 0 else if level.toLower = "error" then 1 else 2

/-- What kept the system from reading or writing a file. Some calls give the number of a fault with
its sign changed. -/
def FileFault.ofError (e : IO.Error) : FileFault :=
  let number : IO.Error → UInt32
    | .noFileOrDirectory .. => 2
    | .inappropriateType _ code _ | .invalidArgument _ code _ => min code (0 - code)
    | _ => 0
  match number e with
  | 2 => .missing
  | 20 => .notFolder
  | 21 => .isFolder
  | 36 => .tooLong
  | _ => .other e.toString

def systemFiles : FileAccess IO where
  read path := do
    try
      let bytes ← IO.FS.readBinFile path
      return match String.fromUTF8? bytes with
        | some text => .ok text
        | none => .error .notText
    catch e => return .error (.ofError e)
  write path text := do
    try
      IO.FS.writeFile path text
      return .ok ()
    catch e => return .error (.ofError e)

/-- Where the system keeps the configuration, if it says where it keeps such files. -/
def systemConfig : IO (Option String) := do
  let folder ← do
    match ← IO.getEnv "XDG_CONFIG_HOME" with
    | some path => if path.startsWith "/" then pure (some path) else pure none
    | none => pure none
  let home ← IO.getEnv "HOME"
  return (folder <|> home.map (· ++ "/.config")).map (· ++ "/grafcet/config.toml")

end SequentialChart

open SequentialChart in
def main (arguments : List String) : IO UInt32 := do
  let out ← IO.getStdout
  let err ← IO.getStderr
  match Invocation.ofArguments arguments with
  | .error e =>
    (if e.isRequest then out else err).putStr e.message
    return if e.isRequest then 0 else 2
  | .ok invocation =>
    let level := verbosity invocation.logLevel
    match ← (invocation.run systemFiles (← systemConfig)).run with
    | .ok outcome =>
      if 2 ≤ level then
        for d in outcome.warnings do err.putStrLn d.report.line
      out.putStr outcome.output
      return 0
    | .error failure =>
      if 1 ≤ level then
        for r in failure.reports do err.putStrLn r.line
      return 1
