import SpotExchange.Wire.Values

/-!
The JSON forms of orders, cancel requests and trades.
-/

namespace SpotExchange

open Json (Source required optional)

namespace Order

def toJson (order : Order) : Json :=
  .object
    [("order_no", .string order.number),
      ("user_id", .ofNat order.userId.toNat),
      ("symbol", .string order.symbol),
      ("order_type", order.kind.toJson),
      ("side", order.side.toJson),
      ("price", order.price.toJson),
      ("amount", order.amount.toJson),
      ("filled_amount", order.filledAmount.toJson),
      ("filled_money", order.filledMoney.toJson),
      ("status", order.status.toJson),
      ("created_at", order.createdAt.toJson)]

/-- Reads an order. Without a time of its own it was created now. -/
def ofJson? (source : Source) (now : Instant) (value : Json) : Option Order := do
  let slots ← value.slots?
    ["order_no", "user_id", "symbol", "order_type", "side", "price", "amount",
      "filled_amount", "filled_money", "status", "created_at"]
  match slots with
  | [number, userId, symbol, kind, side, price, amount, filledAmount, filledMoney, status,
      createdAt] =>
    return {
      number := ← required number Json.text?
      userId := ← required userId userIdOfJson?
      symbol := ← required symbol Json.text?
      kind := ← required kind (OrderKind.ofJson? source)
      side := ← required side (Side.ofJson? source)
      price := ← optional price 0 Decimal.ofJson?
      amount := ← required amount Decimal.ofJson?
      filledAmount := ← optional filledAmount 0 Decimal.ofJson?
      filledMoney := ← optional filledMoney 0 Decimal.ofJson?
      status := ← optional status .opened (OrderStatus.ofJson? source)
      createdAt := ← optional createdAt now Instant.ofJson? }
  | _ => none

end Order

namespace CancelRequest

def toJson (request : CancelRequest) : Json :=
  .object
    [("symbol", .string request.symbol),
      ("order_no", .string request.number),
      ("side", request.side.toJson),
      ("order_type", request.kind.toJson),
      ("price", request.price.toJson)]

def ofJson? (source : Source) (value : Json) : Option CancelRequest := do
  match ← value.slots? ["symbol", "order_no", "side", "order_type", "price"] with
  | [symbol, number, side, kind, price] =>
    return {
      symbol := ← required symbol Json.text?
      number := ← required number Json.text?
      side := ← required side (Side.ofJson? source)
      kind := ← required kind (OrderKind.ofJson? source)
      price := ← optional price 0 Decimal.ofJson? }
  | _ => none

end CancelRequest

def Trade.toJson (trade : Trade) (id : Option String) : Json :=
  .object
    ((match id with
      | some id => [("id", .string id)]
      | none => []) ++
    [("symbol", .string trade.symbol),
      ("price", trade.price.toJson),
      ("amount", trade.amount.toJson),
      ("money", trade.money.toJson),
      ("buy_order_no", .string trade.buyNumber),
      ("buy_user_id", .ofNat trade.buyUserId.toNat),
      ("sell_order_no", .string trade.sellNumber),
      ("sell_user_id", .ofNat trade.sellUserId.toNat),
      ("taker_side", trade.takerSide.toJson),
      ("created_at", trade.createdAt.toJson)])

end SpotExchange
