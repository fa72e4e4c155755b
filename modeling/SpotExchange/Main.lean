import Std.Time.DateTime.Timestamp
import SpotExchange.Arguments
import SpotExchange.TradeId
import SpotExchange.Wire.Event

/-!
The program: reads settings and commands, and prints events, one to a line.
-/

namespace SpotExchange.Main

def currentInstant : IO Instant := do
  let nanos := (← Std.Time.Timestamp.now).toNanosecondsSinceUnixEpoch.val
  return ⟨nanos / 1000000000, (nanos % 1000000000).toNat⟩

def randomId : IO String := do
  let bytes ← (List.replicate 16 ()).mapM fun _ => IO.rand 0 255
  return TradeId.ofBytes bytes

def printEvents (exchange : Exchange) : IO Exchange := do
  let (events, sink) := exchange.desk.sink.drain
  let out ← IO.getStdout
  for event in events do
    let ids ← (List.replicate event.tradeCount ()).mapM fun _ => randomId
    out.putStrLn (event.toJson ids).toText
  out.flush
  return { exchange with desk := { exchange.desk with sink } }

def readIfPresent (path : String) : IO (Option ByteArray) := do
  try
    return some (← IO.FS.readBinFile path)
  catch
    | .noFileOrDirectory .. => return none
    | error => throw error

/-- Carries out lines as they arrive, until the input ends or the program stops. -/
partial def feedStream (input : IO.FS.Stream) (pending : List UInt8) (exchange : Exchange) :
    IO (Option Stop) := do
  let chunk ← input.read 8192
  let lines := splitLines (pending ++ chunk.toList)
  let ready := if chunk.isEmpty then lines.filter (· ≠ []) else lines.dropLast
  let mut exchange := exchange
  for line in ready do
    match exchange.feedLine (← currentInstant) ⟨line.toArray⟩ with
    | .ok next => exchange ← printEvents next
    | .error stop => return some stop
  if chunk.isEmpty then return none
  else feedStream input (lines.getLast?.getD []) exchange

def complain (message : String) : IO Unit := do (← IO.getStderr).putStrLn ("Error: " ++ message)

def openInput (path : Option String) : IO IO.FS.Stream :=
  match path with
  | some path => do
    return IO.FS.Stream.ofHandle (← IO.FS.Handle.mk path .read)
  | none => IO.getStdin

def run (arguments : Arguments) : IO UInt32 := do
  let path := arguments.settingsPath.getD Arguments.defaultSettingsPath
  let file ← readIfPresent path
  let text := file.map fun bytes => String.fromUTF8? bytes
  if text = some none then
    complain ("loading " ++ path)
    return 1
  match Exchange.launch arguments.options (text.bind id) with
  | .error fault =>
    match fault with
    | .settings (.faulty fault) => complain fault.message
    | .settings .undecodable => complain ("loading " ++ path)
    | .metricsAddress address => complain ("invalid config: invalid metrics_addr " ++ address)
    return fault.exitCode.toUInt32
  | .ok exchange =>
    match ← feedStream (← openInput arguments.inputPath) [] exchange with
    | none => return 0
    | some stop =>
      match stop with
      | .notText => complain "stream did not contain valid UTF-8"
      | .overflow cause => complain cause.message
      return stop.exitCode.toUInt32

end SpotExchange.Main

def main (args : List String) : IO UInt32 := do
  match SpotExchange.Arguments.ofList args with
  | .error fault =>
    SpotExchange.Main.complain fault.message
    return 2
  | .ok arguments =>
    if arguments.help then
      IO.println SpotExchange.Arguments.usage
      return 0
    else
      try
        SpotExchange.Main.run arguments
      catch error =>
        SpotExchange.Main.complain (toString error)
        return 1
