import SpotExchange.Exchange
import SpotExchange.Json.Reader
import SpotExchange.Wire.Order

/-!
The JSON forms of commands, and messages: the UTF-8 text of one command. The
member `cmd` tells which command it is and with it which other member counts.
-/

namespace SpotExchange

open Json (Source required)

namespace Command

def toJson : Command → Json
  | .placeOrder order => .object [("cmd", .string "place_order"), ("order", order.toJson)]
  | .cancelOrder request =>
    .object [("cmd", .string "cancel_order"), ("cancel", request.toJson)]
  | .haltSymbol symbol => .object [("cmd", .string "halt_symbol"), ("symbol", .string symbol)]
  | .resumeSymbol symbol =>
    .object [("cmd", .string "resume_symbol"), ("symbol", .string symbol)]
  | .markReady symbol => .object [("cmd", .string "mark_ready"), ("symbol", .string symbol)]
  | .removeSymbol symbol =>
    .object [("cmd", .string "remove_symbol"), ("symbol", .string symbol)]

def field? (name : String) (fields : Json) (decode : Json → Option α) : Option α := do
  match ← fields.slots? [name] with
  | [slot] => required slot decode
  | _ => none

def ofFields? (now : Instant) (name : String) (fields : Json) : Option Command :=
  match name with
  | "place_order" => (field? "order" fields (Order.ofJson? .tree now)).map .placeOrder
  | "cancel_order" => (field? "cancel" fields (CancelRequest.ofJson? .tree)).map .cancelOrder
  | "halt_symbol" => (field? "symbol" fields Json.text?).map .haltSymbol
  | "resume_symbol" => (field? "symbol" fields Json.text?).map .resumeSymbol
  | "mark_ready" => (field? "symbol" fields Json.text?).map .markReady
  | "remove_symbol" => (field? "symbol" fields Json.text?).map .removeSymbol
  | _ => none

/-- Reads a command: an object with its name under `cmd`, or an array that starts
with its name. -/
def ofJson? (now : Instant) : Json → Option Command
  | .object members => do
    match ← Json.member? "cmd" members with
    | some (.string name) =>
      ofFields? now name (.object (members.filter fun entry => entry.1 ≠ "cmd"))
    | _ => none
  | .array (.string name :: fields) => ofFields? now name (.array fields)
  | _ => none

/-- Reads a message. It is kept whole before it is decoded, so nothing in it may
be unreadable or too deep. -/
def ofText? (now : Instant) (text : List Char) : Option Command := do
  let value ← Json.ofText? text
  if value.sound then ofJson? now value else none

def ofBytes? (now : Instant) (bytes : ByteArray) : Option Command := do
  ofText? now (← String.fromUTF8? bytes).toList

end Command

namespace Exchange

def applyRead (exchange : Exchange) (now : Instant) (command : Option Command) :
    Except Overflow (Reply × Exchange) :=
  match command with
  | some command => exchange.apply now command
  | none => .ok (some .undecodable, exchange)

def receive (exchange : Exchange) (now : Instant) (message : ByteArray) :
    Except Overflow (Reply × Exchange) :=
  exchange.applyRead now (Command.ofBytes? now message)

def receiveText (exchange : Exchange) (now : Instant) (message : List Char) :
    Except Overflow (Reply × Exchange) :=
  exchange.applyRead now (Command.ofText? now message)

end Exchange

end SpotExchange
