import SpotExchange.Book.Level

/-!
Ladders: the price levels of one side, best price first. There is one level for
each price, whatever places the price is written with, and none without orders.
-/

namespace SpotExchange

/-- Price levels from the best price outward. -/
abbrev Ladder := List PriceLevel

namespace Ladder

def append (side : Side) (order : Order) : Ladder → Ladder
  | [] => [⟨order.price, [order]⟩]
  | level :: rest =>
    if level.price ≈ order.price then level.append order :: rest
    else if side.better order.price level.price then ⟨order.price, [order]⟩ :: level :: rest
    else level :: append side order rest

def keep (level : PriceLevel) (orders : OrderQueue) (rest : Ladder) : Ladder :=
  if orders.isEmpty then rest else { level with orders } :: rest

def extract? (price : Decimal) (number : String) : Ladder → Option (Order × Ladder)
  | [] => none
  | level :: rest =>
    if level.price ≈ price then
      (OrderQueue.extract? number level.orders).map fun (order, orders) =>
        (order, keep level orders rest)
    else (extract? price number rest).map fun (order, others) => (order, level :: others)

def bestPrice? (ladder : Ladder) : Option Decimal := ladder.head?.map fun level => level.price

/-- The prices an incoming order of `side` crosses at its limit, best first. -/
def crossingPrices (side : Side) (limit : Decimal) (ladder : Ladder) : List Decimal :=
  (ladder.map fun level => level.price).filter fun price => side.crosses limit price

def divide (side : Side) (limit : Decimal) (ladder : Ladder) : Ladder × Ladder :=
  (ladder.filter fun level => side.crosses limit level.price,
    ladder.filter fun level => !side.crosses limit level.price)

def orders (ladder : Ladder) : List Order := ladder.flatMap fun level => level.orders

def rising (side : Side) (ladder : Ladder) : List PriceLevel :=
  match side with
  | .buy => ladder.reverse
  | .sell => ladder

end Ladder

end SpotExchange
