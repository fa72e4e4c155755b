import SpotExchange.Decimal.Arithmetic
import SpotExchange.Instant.Basic

/-!
Orders: what they ask for, what has been filled, and when they are done. The
amount of a market buy is money to spend; every other amount is a quantity of
the traded asset.
-/

namespace SpotExchange

inductive Side where
  | buy
  | sell
  deriving DecidableEq

namespace Side

def opposite : Side → Side
  | .buy => .sell
  | .sell => .buy

def better (side : Side) (price other : Decimal) : Bool :=
  match side with
  | .buy => other < price
  | .sell => price < other

def crosses (side : Side) (limit resting : Decimal) : Bool :=
  match side with
  | .buy => resting ≤ limit
  | .sell => limit ≤ resting

end Side

/-- A limit order names its price; a market order takes what it finds. -/
inductive OrderKind where
  | limit
  | market
  deriving DecidableEq

inductive OrderStatus where
  | opened
  | partiallyFilled
  | filled
  | cancelled
  deriving DecidableEq

def OrderStatus.isTerminal : OrderStatus → Bool
  | .filled => true
  | .cancelled => true
  | _ => false

structure Order where
  number : String
  userId : UInt64
  symbol : String
  kind : OrderKind
  side : Side
  price : Decimal
  amount : Decimal
  filledAmount : Decimal
  filledMoney : Decimal
  status : OrderStatus
  createdAt : Instant
  deriving DecidableEq

namespace Order

def limit (number : String) (userId : UInt64) (symbol : String) (side : Side)
    (price amount : Decimal) (createdAt : Instant) : Order :=
  { number, userId, symbol, kind := .limit, side, price, amount
    filledAmount := 0, filledMoney := 0, status := .opened, createdAt }

def market (number : String) (userId : UInt64) (symbol : String) (side : Side)
    (amount : Decimal) (createdAt : Instant) : Order :=
  { limit number userId symbol side 0 amount createdAt with kind := .market }

def isMarketBuy (order : Order) : Bool := order.kind = .market && order.side = .buy

def remaining (order : Order) : Except Overflow Decimal := order.amount.sub order.filledAmount

/-- The quantity an order can still trade at a price. The money left to a market
buy is turned into a quantity of at most `baseScale` places. -/
def availableAt (order : Order) (price : Decimal) (baseScale : Nat) : Except Overflow Decimal :=
  if order.isMarketBuy then
    if price ≤ 0 then .ok 0
    else do
      let left ← order.amount.sub order.filledMoney
      if left ≤ 0 then return 0 else return (← left.div price).truncate baseScale
  else do
    return (← order.remaining).max 0

/-- Whether nothing is left to fill: the money of a market buy is spent, the
quantity of any other order is filled, or the order is closed. -/
def isCompleted (order : Order) : Bool :=
  order.status.isTerminal ||
    (if order.isMarketBuy then order.amount ≤ order.filledMoney
    else order.amount ≤ order.filledAmount)

def settleStatus (order : Order) : Order :=
  if order.isCompleted then { order with status := .filled }
  else if 0 < order.filledAmount then { order with status := .partiallyFilled }
  else order

def fill (order : Order) (quantity money : Decimal) : Except Overflow Order :=
  if order.status.isTerminal then .ok order
  else do
    let filledAmount ← order.filledAmount.add quantity
    let filledMoney ← order.filledMoney.add money
    return { order with filledAmount, filledMoney }.settleStatus

def cancel (order : Order) : Order :=
  if order.status.isTerminal then order else { order with status := .cancelled }

end Order

structure CancelRequest where
  symbol : String
  number : String
  side : Side
  kind : OrderKind
  price : Decimal
  deriving DecidableEq

def Order.cancelRequest (order : Order) : CancelRequest :=
  { symbol := order.symbol, number := order.number, side := order.side
    kind := order.kind, price := order.price }

structure Trade where
  symbol : String
  price : Decimal
  amount : Decimal
  money : Decimal
  buyNumber : String
  buyUserId : UInt64
  sellNumber : String
  sellUserId : UInt64
  takerSide : Side
  createdAt : Instant
  deriving DecidableEq

def Trade.between (taker maker : Order) (price amount money : Decimal) (createdAt : Instant) :
    Trade :=
  let (buyer, seller) := match taker.side with
    | .buy => (taker, maker)
    | .sell => (maker, taker)
  { symbol := taker.symbol, price, amount, money
    buyNumber := buyer.number, buyUserId := buyer.userId
    sellNumber := seller.number, sellUserId := seller.userId
    takerSide := taker.side, createdAt }

end SpotExchange
