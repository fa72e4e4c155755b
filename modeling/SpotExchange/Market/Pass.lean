import SpotExchange.Listing

/-!
A matching pass: an incoming order, the taker, meets resting orders, the makers,
one by one. Each meeting trades as much as both still can, at the price of the
one with a limit, the maker first.
-/

namespace SpotExchange

/-- Quantities taken from the opposing depth view, by rising price. -/
abbrev DepthDeltas := List (Decimal × Decimal)

def DepthDeltas.add (price amount : Decimal) : DepthDeltas → Except Overflow DepthDeltas
  | [] => .ok [(price, amount)]
  | (known, taken) :: rest =>
    if known ≈ price then do
      return (known, ← taken.add amount) :: rest
    else if price < known then .ok ((price, amount) :: (known, taken) :: rest)
    else do
      return (known, taken) :: (← DepthDeltas.add price amount rest)

/-- The taker as it is filled, and what came of it so far. -/
structure Pass where
  taker : Order
  trades : Array Trade
  completed : Array Order
  deltas : DepthDeltas

namespace Pass

def start (taker : Order) : Pass := ⟨taker, #[], #[], []⟩

def settle (pass : Pass) (now : Instant) (maker : Order) (price amount money : Decimal) :
    Except Overflow (Pass × Order) := do
  let taker ← pass.taker.fill amount money
  let maker ← maker.fill amount money
  -- only limit orders are shown, and one has its row at its own price
  let deltas ←
    if maker.kind = .limit then DepthDeltas.add maker.price amount pass.deltas
    else .ok pass.deltas
  let trade := Trade.between taker maker price amount money now
  return ({ pass with taker, deltas, trades := pass.trades.push trade }, maker)

def dealPrice (taker maker : Order) : Decimal :=
  match maker.kind with
  | .limit => maker.price
  | .market => taker.price

/-- Trades what both orders can still trade at the deal price. Two market orders
have no price and do not trade. -/
def meet (pass : Pass) (listing : Listing) (now : Instant) (maker : Order) :
    Except Overflow (Pass × Order) :=
  let price := dealPrice pass.taker maker
  if price ≤ 0 then .ok (pass, maker)
  else do
    let need ← pass.taker.availableAt price listing.baseScale
    let available ← maker.availableAt price listing.baseScale
    let amount := need.min available
    if amount ≤ 0 then return (pass, maker)
    else
      let money := listing.floorQuote (← amount.mul price)
      pass.settle now maker price amount money

def complete (pass : Pass) (orders : List Order) : Pass :=
  { pass with completed := pass.completed ++ orders }

end Pass

end SpotExchange
