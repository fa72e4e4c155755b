import SpotExchange.Market.Basic
import SpotExchange.Market.PriceTime
import SpotExchange.Market.ProRata

/-!
Trading on a market: an incoming order is refused, or matched and then reported
as done or left to rest; a resting order can be cancelled.
-/

namespace SpotExchange

inductive Refusal where
  | halted
  | symbolMismatch
  | nothingToFill
  | invalidPrice
  deriving DecidableEq

def Refusal.label : Refusal → String
  | .halted => "halted"
  | .symbolMismatch => "symbol_mismatch"
  | .nothingToFill => "nothing_to_fill"
  | .invalidPrice => "invalid_price"

structure Report where
  trades : List Trade
  completed : List Order
  resting : Option Order
  depthChanged : List Side
  deriving DecidableEq

inductive Outcome where
  | refused (reason : Refusal)
  | processed (report : Report)
  deriving DecidableEq

namespace Outcome

def trades : Outcome → List Trade
  | .refused _ => []
  | .processed report => report.trades

end Outcome

namespace Market

/-- The first reason to refuse an order, if there is one. -/
def refusal? (market : Market) (order : Order) : Except Overflow (Option Refusal) :=
  if market.halted then .ok (some .halted)
  else if order.symbol ≠ market.symbol then .ok (some .symbolMismatch)
  else if order.amount ≤ 0 then .ok (some .nothingToFill)
  else do
    if (← order.remaining) ≤ 0 ∨ order.isCompleted then return some .nothingToFill
    else if order.kind = .limit ∧ order.price ≤ 0 then return some .invalidPrice
    else return none

def matchApportioned (market : Market) (now : Instant) (pass : Pass) :
    Except Overflow (Pass × Market) :=
  let against := pass.taker.side.opposite
  if market.listing.apportions pass.taker then do
    let (pass, ladder) ← pass.apportion market.listing now (market.book.ladder against)
    return (pass, { market with book := market.book.setLadder against ladder })
  else .ok (pass, market)

def matchLadder (market : Market) (now : Instant) (limit : Option Decimal) (pass : Pass) :
    Except Overflow (Pass × Market) :=
  let against := pass.taker.side.opposite
  if pass.taker.isCompleted then .ok (pass, market)
  else do
    let (pass, ladder) ←
      pass.sweepLadder market.listing now limit (market.book.ladder against)
    return (pass, { market with book := market.book.setLadder against ladder })

def matchQueue (market : Market) (now : Instant) (pass : Pass) :
    Except Overflow (Pass × Market) :=
  let against := pass.taker.side.opposite
  if pass.taker.isCompleted then .ok (pass, market)
  else do
    let (pass, queue) ← pass.sweepQueue market.listing now (market.book.queue against)
    return (pass, { market with book := market.book.setQueue against queue })

/-- All matching of a pass. A market order meets limit orders only; a limit order
meets those within its limit and then market orders. -/
def matchOrder (market : Market) (now : Instant) (order : Order) :
    Except Overflow (Pass × Market) :=
  match order.kind with
  | .market => market.matchLadder now none (.start order)
  | .limit => do
    let (pass, market) ← market.matchApportioned now (.start order)
    let (pass, market) ← market.matchLadder now (some order.price) pass
    market.matchQueue now pass

def applyDeltas (market : Market) (side : Side) (deltas : DepthDeltas) :
    Except Overflow (List Side × Market) := do
  let (changed, view) ← (market.depth side).removeMany deltas
  return (if changed then [side] else [], market.setDepth side view)

def rest (market : Market) (order : Order) : Except Overflow (List Side × Market) :=
  match order.kind with
  | .limit => do
    let (changed, view) ← (market.depth order.side).insert order
    let market := market.setDepth order.side view
    return (if changed then [order.side] else [],
      { market with book := market.book.addLimit order })
  | .market => .ok ([], { market with book := market.book.addMarket order })

/-- Ends a pass: the opposing depth view follows the trades, and the taker is
reported as done or rests. -/
def finish (market : Market) (pass : Pass) : Except Overflow (Report × Market) := do
  let (opposing, market) ← market.applyDeltas pass.taker.side.opposite pass.deltas
  if pass.taker.isCompleted then
    return ({ trades := pass.trades.toList, completed := pass.completed.toList ++ [pass.taker]
              resting := none, depthChanged := opposing }, market)
  else
    let (own, market) ← market.rest pass.taker
    return ({ trades := pass.trades.toList, completed := pass.completed.toList
              resting := some pass.taker, depthChanged := opposing ++ own }, market)

def trade (market : Market) (now : Instant) (order : Order) :
    Except Overflow (Outcome × Market) := do
  match ← market.refusal? order with
  | some reason => return (.refused reason, market)
  | none =>
    let (pass, market) ← market.matchOrder now order
    let (report, market) ← market.finish pass
    return (.processed report, market)

def cancel (market : Market) (request : CancelRequest) :
    Except Overflow (Option Order × Market) :=
  if request.symbol ≠ market.symbol then .ok (none, market)
  else
    match request.kind with
    | .market =>
      match market.book.removeMarket? request.side request.number with
      | some (order, book) => .ok (some order.cancel, { market with book })
      | none => .ok (none, market)
    | .limit =>
      match market.book.removeLimit? request.side request.price request.number with
      | some (order, book) => do
        let (_, view) ← (market.depth order.side).remove order (← order.remaining)
        return (some order.cancel, { market with book }.setDepth order.side view)
      | none => .ok (none, market)

end Market

end SpotExchange
