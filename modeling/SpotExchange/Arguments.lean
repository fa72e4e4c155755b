import SpotExchange.Launch

/-!
The command line: where settings and commands are read from, whether metrics are
served, and where events go.
-/

namespace SpotExchange

structure Arguments where
  settingsPath : Option String
  inputPath : Option String
  noMetrics : Bool
  logEvents : Bool
  help : Bool
  deriving DecidableEq

inductive ArgumentFault where
  | unexpected (argument : String)
  | valueMissing (option : String)
  | repeated (option : String)
  deriving DecidableEq

def ArgumentFault.message : ArgumentFault → String
  | .unexpected argument => "unexpected argument " ++ argument
  | .valueMissing option => "a value is required for " ++ option
  | .repeated option => "the argument " ++ option ++ " cannot be used multiple times"

namespace Arguments

def none : Arguments := ⟨.none, .none, false, false, false⟩

def defaultSettingsPath : String := "config.toml"

def usage : String :=
  "Options:\n" ++
  "  -c, --config <CONFIG>  Runtime config file [default: config.toml]\n" ++
  "  -i, --input <INPUT>    Newline-delimited JSON commands, stdin when omitted\n" ++
  "      --no-metrics       Do not start the metrics endpoint\n" ++
  "      --log-events       Write outbound events to the log instead of stdout\n" ++
  "  -h, --help             Print help"

def isValue (argument : String) : Bool :=
  argument = "-" || argument.toList.head? ≠ some '-'

/-- An option and its value in one argument: `--name=value` or `-nvalue`. -/
def attached? (long short : String) (argument : String) : Option String :=
  let chars := argument.toList
  let long := (long ++ "=").toList
  if long.isPrefixOf chars then some (String.ofList (chars.drop long.length))
  else if short.toList.isPrefixOf chars then
    let value := chars.drop short.length
    some (String.ofList (if value.head? = some '=' then value.drop 1 else value))
  else .none

def setSettingsPath (arguments : Arguments) (path : String) : Except ArgumentFault Arguments :=
  if arguments.settingsPath.isSome then .error (.repeated "--config <CONFIG>")
  else .ok { arguments with settingsPath := some path }

def setInputPath (arguments : Arguments) (path : String) : Except ArgumentFault Arguments :=
  if arguments.inputPath.isSome then .error (.repeated "--input <INPUT>")
  else .ok { arguments with inputPath := some path }

def takeSingle (arguments : Arguments) (argument : String) : Except ArgumentFault Arguments :=
  if argument = "-h" ∨ argument = "--help" then .ok { arguments with help := true }
  else if argument = "--no-metrics" then
    if arguments.noMetrics then .error (.repeated argument)
    else .ok { arguments with noMetrics := true }
  else if argument = "--log-events" then
    if arguments.logEvents then .error (.repeated argument)
    else .ok { arguments with logEvents := true }
  else
    match attached? "--config" "-c" argument, attached? "--input" "-i" argument with
    | some path, _ => arguments.setSettingsPath path
    | _, some path => arguments.setInputPath path
    | _, _ => .error (.unexpected argument)

def takeAll (arguments : Arguments) : List String → Except ArgumentFault Arguments
  | [] => .ok arguments
  | [last] =>
    if last = "-c" ∨ last = "--config" then .error (.valueMissing "--config <CONFIG>")
    else if last = "-i" ∨ last = "--input" then .error (.valueMissing "--input <INPUT>")
    else arguments.takeSingle last
  | first :: second :: rest =>
    if first = "-c" ∨ first = "--config" then
      if isValue second then do (← arguments.setSettingsPath second).takeAll rest
      else .error (.valueMissing "--config <CONFIG>")
    else if first = "-i" ∨ first = "--input" then
      if isValue second then do (← arguments.setInputPath second).takeAll rest
      else .error (.valueMissing "--input <INPUT>")
    else do (← arguments.takeSingle first).takeAll (second :: rest)

def ofList (list : List String) : Except ArgumentFault Arguments := none.takeAll list

def options (arguments : Arguments) : LaunchOptions :=
  { metrics := !arguments.noMetrics, logEvents := arguments.logEvents }

end Arguments

end SpotExchange
