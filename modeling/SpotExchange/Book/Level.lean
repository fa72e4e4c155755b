import SpotExchange.Order

/-!
Queues of resting orders in arrival order, and price levels: the queue of all
limit orders at one price. The front of a queue is always served first.
-/

namespace SpotExchange

/-- Orders in arrival order. -/
abbrev OrderQueue := List Order

namespace OrderQueue

def extract? (number : String) : OrderQueue → Option (Order × OrderQueue)
  | [] => none
  | order :: rest =>
    if order.number = number then some (order, rest)
    else (extract? number rest).map fun (found, others) => (found, order :: others)

def lookup? (number : String) (queue : OrderQueue) : Option Order :=
  queue.find? fun order => order.number = number

def separate (queue : OrderQueue) : OrderQueue × OrderQueue :=
  (queue.filter fun order => order.isCompleted, queue.filter fun order => !order.isCompleted)

/-- The sum of the amounts asked for, filled or not. -/
def totalAmount (queue : OrderQueue) : Except Overflow Decimal :=
  Decimal.sum (queue.map fun order => order.amount)

def remainingAmount (queue : OrderQueue) : Except Overflow Decimal :=
  queue.foldlM (fun sum order => do sum.add (← order.remaining)) 0

end OrderQueue

structure PriceLevel where
  price : Decimal
  orders : OrderQueue
  deriving DecidableEq

namespace PriceLevel

def append (level : PriceLevel) (order : Order) : PriceLevel :=
  { level with orders := level.orders ++ [order] }

def removeAt? (level : PriceLevel) (index : Nat) : Option (Order × PriceLevel) :=
  level.orders[index]?.map fun order =>
    (order, { level with orders := level.orders.eraseIdx index })

def remove? (level : PriceLevel) (number : String) : Option (Order × PriceLevel) :=
  (OrderQueue.extract? number level.orders).map fun (order, orders) =>
    (order, { level with orders })

def takeCompleted (level : PriceLevel) : OrderQueue × PriceLevel :=
  let (done, orders) := OrderQueue.separate level.orders
  (done, { level with orders })

def fillAt (level : PriceLevel) (index : Nat) (quantity money : Decimal) :
    Except Overflow PriceLevel :=
  match level.orders[index]? with
  | some order => do
    return { level with orders := level.orders.set index (← order.fill quantity money) }
  | none => .ok level

def fillAll (level : PriceLevel) (quantity money : Decimal) : Except Overflow PriceLevel := do
  return { level with orders := ← level.orders.mapM fun order => order.fill quantity money }

end PriceLevel

end SpotExchange
