import SpotExchange.Event
import SpotExchange.Wire.Order

/-!
The JSON forms of events.
-/

namespace SpotExchange

def DepthRow.toJson (row : DepthRow) : Json :=
  .object [("price", row.price.toJson), ("amount", row.amount.toJson)]

def DepthSnapshot.members (snapshot : DepthSnapshot) : List (String × Json) :=
  [("symbol", .string snapshot.symbol),
    ("side", snapshot.side.toJson),
    ("best", Json.ofOption Decimal.toJson snapshot.best),
    ("worst", Json.ofOption Decimal.toJson snapshot.worst),
    ("entries", .array (snapshot.rows.map DepthRow.toJson))]

def tradesToJson : List Trade → List String → List Json
  | [], _ => []
  | trade :: rest, [] => trade.toJson none :: tradesToJson rest []
  | trade :: rest, id :: ids => trade.toJson (some id) :: tradesToJson rest ids

/-- The form of an event; its trades take the given identifiers in turn. -/
def Event.toJson (event : Event) (ids : List String) : Json :=
  match event with
  | .trades symbol list =>
    .object [("type", .string "trades"), ("symbol", .string symbol),
      ("trades", .array (tradesToJson list ids))]
  | .completed symbol orders =>
    .object [("type", .string "completed"), ("symbol", .string symbol),
      ("orders", .array (orders.map Order.toJson))]
  | .cancelled symbol orders =>
    .object [("type", .string "cancelled"), ("symbol", .string symbol),
      ("orders", .array (orders.map Order.toJson))]
  | .depth snapshot => .object (("type", .string "depth") :: snapshot.members)

def Event.tradeCount : Event → Nat
  | .trades _ list => list.length
  | _ => 0

end SpotExchange
