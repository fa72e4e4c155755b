import SpotExchange.Market.Trading

/-!
Events: what a market lets the world know. The events of a pass are its trades
in batches, the orders that are done, and every depth view that changed.
-/

namespace SpotExchange

inductive Event where
  | trades (symbol : String) (trades : List Trade)
  | completed (symbol : String) (orders : List Order)
  | cancelled (symbol : String) (orders : List Order)
  | depth (snapshot : DepthSnapshot)
  deriving DecidableEq

def inBatches (size : Nat) : List α → List (List α)
  | [] => []
  | first :: rest =>
    (first :: rest.take (size - 1)) :: inBatches size (rest.drop (size - 1))
termination_by items => items.length
decreasing_by
  simp only [List.length_drop, List.length_cons]
  omega

namespace Market

def reportEvents (market : Market) (batch : Nat) (report : Report) : List Event :=
  (inBatches batch report.trades).map (.trades market.symbol) ++
    (if report.completed.isEmpty then [] else [.completed market.symbol report.completed]) ++
    report.depthChanged.map fun side => .depth (market.snapshot side)

def cancelledEvents (market : Market) (orders : List Order) : List Event :=
  if orders.isEmpty then [] else [.cancelled market.symbol orders]

/-- The events of one cancellation. Only a limit order was in a depth view. -/
def cancellationEvents (market : Market) (order : Order) : List Event :=
  market.cancelledEvents [order] ++
    match order.kind with
    | .limit => [.depth (market.snapshot order.side)]
    | .market => []

end Market

end SpotExchange
