import SpotExchange.Book.Ladder
import SpotExchange.Market.Pass

/-!
Pro-rata sharing while an issuance window is open: every maker within the limit
is given the part of the incoming amount that its own amount is of all of them,
cut to the places of a quantity. What the cuts leave over is not traded here.
-/

namespace SpotExchange

/-- `amount * part / total`, with the quotient first when the product overflows. -/
def proRata (amount part total : Decimal) : Except Overflow Decimal :=
  match (do (← amount.mul part).div total : Except Overflow Decimal) with
  | .ok share => .ok share
  | .error _ => do amount.mul (← part.div total)

namespace Pass

def allot (pass : Pass) (listing : Listing) (now : Instant) (total price : Decimal)
    (maker : Order) : Except Overflow (Pass × Order) := do
  let share := listing.floorBase (← proRata pass.taker.amount maker.amount total)
  let available ← maker.availableAt price listing.baseScale
  let need ← pass.taker.availableAt price listing.baseScale
  let amount := (share.min available).min need
  if amount ≤ 0 then return (pass, maker)
  else
    let money := listing.floorQuote (← amount.mul price)
    pass.settle now maker price amount money

def allotQueue (pass : Pass) (listing : Listing) (now : Instant) (total price : Decimal) :
    OrderQueue → Except Overflow (Pass × OrderQueue)
  | [] => .ok (pass, [])
  | maker :: rest =>
    if pass.taker.isCompleted then .ok (pass, maker :: rest)
    else do
      let (given, maker) ← pass.allot listing now total price maker
      let (given, others) ← given.allotQueue listing now total price rest
      return (given, maker :: others)

def allotLadder (pass : Pass) (listing : Listing) (now : Instant) (total : Decimal) :
    Ladder → Except Overflow (Pass × Ladder)
  | [] => .ok (pass, [])
  | level :: rest => do
    let (given, orders) ← pass.allotQueue listing now total level.price level.orders
    let (done, orders) := OrderQueue.separate orders
    let given := given.complete done
    if given.taker.isCompleted then return (given, Ladder.keep level orders rest)
    else
      let (given, others) ← given.allotLadder listing now total rest
      return (given, Ladder.keep level orders others)

def apportion (pass : Pass) (listing : Listing) (now : Instant) (ladder : Ladder) :
    Except Overflow (Pass × Ladder) := do
  let (crossing, beyond) := ladder.divide pass.taker.side pass.taker.price
  let total ← Decimal.sum (← crossing.mapM fun level => OrderQueue.totalAmount level.orders)
  if total ≤ 0 then return (pass, ladder)
  else
    let (given, others) ← pass.allotLadder listing now total crossing
    return (given, others ++ beyond)

end Pass

end SpotExchange
