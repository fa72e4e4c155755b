import SpotExchange.Metrics
import SpotExchange.Sink

/-!
The desk: puts orders and cancellations through a market, counts them and
publishes what came of them. A sink that fails is counted and changes nothing
else.
-/

namespace SpotExchange

/-- Trades of one event at most, the sink, and the counters. -/
structure Desk where
  maxTradeBatch : Nat
  sink : Sink
  metrics : Metrics

namespace Desk

def onSink (sink : Sink) (maxTradeBatch : Nat) : Desk :=
  { maxTradeBatch := if maxTradeBatch = 0 then 1 else maxTradeBatch
    sink, metrics := Metrics.empty }

def publish (desk : Desk) (events : List Event) : Bool × Desk :=
  let (taken, sink) := desk.sink.publishAll events
  (taken, { desk with sink })

def publishCounted (desk : Desk) (symbol : String) (events : List Event) : Desk :=
  match desk.publish events with
  | (true, desk) => desk
  | (false, desk) => { desk with metrics := desk.metrics.countSinkFailure symbol }

def record (desk : Desk) (market : Market) (outcome : Outcome) : Desk :=
  let symbol := market.symbol
  let metrics := desk.metrics.countPass symbol
  match outcome with
  | .refused reason => { desk with metrics := metrics.countOrder reason.label symbol }
  | .processed report =>
    let metrics := (metrics.countOrder "processed" symbol).countTrades symbol report.trades.length
    { desk with metrics }.publishCounted symbol (market.reportEvents desk.maxTradeBatch report)

def place (desk : Desk) (now : Instant) (market : Market) (order : Order) :
    Except Overflow (Outcome × Market × Desk) := do
  let (outcome, market) ← market.trade now order
  return (outcome, market, desk.record market outcome)

def cancel (desk : Desk) (market : Market) (request : CancelRequest) :
    Except Overflow (Option Order × Market × Desk) := do
  match ← market.cancel request with
  | (some order, market) =>
    return (some order, market,
      desk.publishCounted market.symbol (market.cancellationEvents order))
  | (none, market) => return (none, market, desk)

end Desk

end SpotExchange
