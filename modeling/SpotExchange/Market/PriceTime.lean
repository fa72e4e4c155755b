import SpotExchange.Book.Ladder
import SpotExchange.Market.Pass

/-!
Price-time priority: the taker meets the makers of a queue in arrival order, and
the queues of a ladder from the best price outward, until it is done.
-/

namespace SpotExchange.Pass

def sweepQueue (pass : Pass) (listing : Listing) (now : Instant) :
    OrderQueue → Except Overflow (Pass × OrderQueue)
  | [] => .ok (pass, [])
  | maker :: rest => do
    let (met, maker) ← pass.meet listing now maker
    if maker.isCompleted then
      let done := met.complete [maker]
      if done.taker.isCompleted then return (done, rest)
      else done.sweepQueue listing now rest
    else if met.taker.isCompleted then return (met, maker :: rest)
    else
      let (swept, others) ← met.sweepQueue listing now rest
      return (swept, maker :: others)

def reaches (taker : Order) (limit : Option Decimal) (level : PriceLevel) : Bool :=
  match limit with
  | some limit => taker.side.crosses limit level.price
  | none => true

/-- Meets the levels of a ladder in turn. A level that keeps an order ends the
walk: the taker can take no more at its price, and all others are worse. -/
def sweepLadder (pass : Pass) (listing : Listing) (now : Instant) (limit : Option Decimal) :
    Ladder → Except Overflow (Pass × Ladder)
  | [] => .ok (pass, [])
  | level :: rest =>
    if reaches pass.taker limit level then do
      let (swept, orders) ← pass.sweepQueue listing now level.orders
      if !orders.isEmpty then return (swept, { level with orders } :: rest)
      else if swept.taker.isCompleted then return (swept, rest)
      else swept.sweepLadder listing now limit rest
    else .ok (pass, level :: rest)

end SpotExchange.Pass
