import SpotExchange.Blank
import SpotExchange.SocketAddress
import SpotExchange.Wire.Command
import SpotExchange.Wire.Settings

/-!
The program without its input and output: an exchange is set up from a settings
file and fed with lines. A line holds one command; blank lines and those that
start with `#` are passed over, and so is a command that is rejected.
-/

namespace SpotExchange

structure LaunchOptions where
  metrics : Bool
  logEvents : Bool

inductive LaunchFault where
  | settings (error : SettingsError)
  | metricsAddress (address : String)

inductive Stop where
  | notText
  | overflow (cause : Overflow)

def LaunchFault.exitCode (_ : LaunchFault) : Nat := 1

def Stop.exitCode : Stop → Nat
  | .notText => 1
  | .overflow _ => 101

namespace Exchange

/-- Sets up an exchange. Without a settings file the defaults hold; metrics need
an address to be served at. -/
def launch (options : LaunchOptions) (file : Option String) : Except LaunchFault Exchange :=
  match file.elim (.ok Settings.default) Settings.ofToml with
  | .error error => .error (.settings error)
  | .ok settings =>
    if options.metrics && !SocketAddress.isValid settings.metricsAddress then
      .error (.metricsAddress settings.metricsAddress)
    else .ok (ofSettings settings (if options.logEvents then .log else .openChannel))

/-- The command on a line, as text, unless the line holds none. -/
def lineCommand? (line : List Char) : Option (List Char) :=
  match trimBlanks line with
  | [] => none
  | '#' :: _ => none
  | command => some command

def feedText (exchange : Exchange) (now : Instant) (line : List Char) : Except Overflow Exchange :=
  match lineCommand? line with
  | some command => do
    let (_, exchange) ← exchange.receiveText now command
    return exchange
  | none => .ok exchange

def feedLine (exchange : Exchange) (now : Instant) (line : ByteArray) : Except Stop Exchange :=
  match String.fromUTF8? line with
  | some text => (exchange.feedText now text.toList).mapError Stop.overflow
  | none => .error .notText

def feed (exchange : Exchange) (now : Instant) : List ByteArray → Option Stop × Exchange
  | [] => (none, exchange)
  | line :: rest =>
    match exchange.feedLine now line with
    | .ok exchange => exchange.feed now rest
    | .error stop => (some stop, exchange)

end Exchange

def splitLines (bytes : List UInt8) : List (List UInt8) :=
  match bytes with
  | [] => [[]]
  | byte :: rest =>
    if byte = 10 then [] :: splitLines rest
    else
      match splitLines rest with
      | line :: lines => (byte :: line) :: lines
      | [] => [[byte]]

def inputLines (bytes : ByteArray) : List ByteArray :=
  let lines := splitLines bytes.toList
  let lines := if lines.getLast? = some [] then lines.dropLast else lines
  lines.map fun line => ⟨line.toArray⟩

end SpotExchange
