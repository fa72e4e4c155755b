import SpotExchange.Book.Ladder

/-!
The resting orders of one symbol: on each side a ladder of limit orders and a
queue of market orders.
-/

namespace SpotExchange

structure BySide (α : Type) where
  buy : α
  sell : α
  deriving DecidableEq

namespace BySide

def get (both : BySide α) : Side → α
  | .buy => both.buy
  | .sell => both.sell

def set (both : BySide α) (side : Side) (value : α) : BySide α :=
  match side with
  | .buy => { both with buy := value }
  | .sell => { both with sell := value }

@[simp] theorem get_set_same (both : BySide α) (side : Side) (value : α) :
    (both.set side value).get side = value := by
  cases side <;> rfl

@[simp] theorem get_set_opposite (both : BySide α) (side : Side) (value : α) :
    (both.set side value).get side.opposite = both.get side.opposite := by
  cases side <;> rfl

end BySide

structure OrderBook where
  ladders : BySide Ladder
  queues : BySide OrderQueue
  deriving DecidableEq

namespace OrderBook

def empty : OrderBook := ⟨⟨[], []⟩, ⟨[], []⟩⟩

def ladder (book : OrderBook) (side : Side) : Ladder := book.ladders.get side

def queue (book : OrderBook) (side : Side) : OrderQueue := book.queues.get side

def setLadder (book : OrderBook) (side : Side) (ladder : Ladder) : OrderBook :=
  { book with ladders := book.ladders.set side ladder }

def setQueue (book : OrderBook) (side : Side) (queue : OrderQueue) : OrderBook :=
  { book with queues := book.queues.set side queue }

def addLimit (book : OrderBook) (order : Order) : OrderBook :=
  book.setLadder order.side ((book.ladder order.side).append order.side order)

def addMarket (book : OrderBook) (order : Order) : OrderBook :=
  book.setQueue order.side (book.queue order.side ++ [order])

def removeLimit? (book : OrderBook) (side : Side) (price : Decimal) (number : String) :
    Option (Order × OrderBook) :=
  ((book.ladder side).extract? price number).map fun (order, ladder) =>
    (order, book.setLadder side ladder)

def removeMarket? (book : OrderBook) (side : Side) (number : String) :
    Option (Order × OrderBook) :=
  (OrderQueue.extract? number (book.queue side)).map fun (order, queue) =>
    (order, book.setQueue side queue)

def bestBid? (book : OrderBook) : Option Decimal := (book.ladder .buy).bestPrice?

def bestAsk? (book : OrderBook) : Option Decimal := (book.ladder .sell).bestPrice?

def spread? (book : OrderBook) : Except Overflow (Option Decimal) :=
  match book.bestAsk?, book.bestBid? with
  | some ask, some bid => do return some (← ask.sub bid)
  | _, _ => .ok none

/-- All orders of a side by rising price and arrival, market orders last. -/
def risingOrders (book : OrderBook) (side : Side) : List Order :=
  Ladder.orders ((book.ladder side).rising side) ++ book.queue side

def find? (book : OrderBook) (number : String) : Option Order :=
  OrderQueue.lookup? number (book.risingOrders .buy ++ book.risingOrders .sell)

def count (book : OrderBook) (side : Side) (kind : OrderKind) : Nat :=
  match kind with
  | .limit => (book.ladder side).orders.length
  | .market => (book.queue side).length

def levelCount (book : OrderBook) (side : Side) : Nat := (book.ladder side).length

def isEmpty (book : OrderBook) : Bool :=
  (book.ladder .buy).isEmpty && (book.queue .buy).isEmpty &&
    (book.ladder .sell).isEmpty && (book.queue .sell).isEmpty

end OrderBook

end SpotExchange
