import SpotExchange.Desk
import SpotExchange.Directory

/-!
The exchange: commands are routed to the market of their symbol. Orders open a
market when there is none; halting, resuming and removing need one.
-/

namespace SpotExchange

inductive Command where
  | placeOrder (order : Order)
  | cancelOrder (request : CancelRequest)
  | haltSymbol (symbol : String)
  | resumeSymbol (symbol : String)
  | markReady (symbol : String)
  | removeSymbol (symbol : String)
  deriving DecidableEq

inductive Rejection where
  | undecodable
  | unknownSymbol (symbol : String)
  deriving DecidableEq

def Rejection.message : Rejection → String
  | .undecodable => "failed to decode command"
  | .unknownSymbol symbol => "symbol " ++ symbol ++ " does not exist"

abbrev Reply := Option Rejection

structure Exchange where
  directory : Directory
  desk : Desk

namespace Exchange

def ofSettings (settings : Settings) (sink : Sink) : Exchange :=
  ⟨.ofSettings settings, .onSink sink settings.maxTradeBatch⟩

def onMarket (exchange : Exchange) (id : MarketId) (change : Market → Market) : Exchange :=
  match exchange.directory.market? id with
  | some market => { exchange with directory := exchange.directory.put id (change market) }
  | none => exchange

def placeAt (exchange : Exchange) (now : Instant) (id : MarketId) (order : Order) :
    Except Overflow (Option Outcome × Exchange) :=
  match exchange.directory.market? id with
  | some market => do
    let (outcome, market, desk) ← exchange.desk.place now market order
    return (some outcome, ⟨exchange.directory.put id market, desk⟩)
  | none => .ok (none, exchange)

def cancelAt (exchange : Exchange) (id : MarketId) (request : CancelRequest) :
    Except Overflow (Option Order × Exchange) :=
  match exchange.directory.market? id with
  | some market => do
    let (order, market, desk) ← exchange.desk.cancel market request
    return (order, ⟨exchange.directory.put id market, desk⟩)
  | none => .ok (none, exchange)

def isReady (exchange : Exchange) (id : MarketId) : Bool :=
  match exchange.directory.market? id with
  | some market => market.ready
  | none => false

def acquire (exchange : Exchange) (symbol : String) : MarketId × Exchange :=
  let (id, directory) := exchange.directory.acquire symbol
  (id, { exchange with directory })

/-- Routes an order to its market. None if that is not ready. -/
def place (exchange : Exchange) (now : Instant) (order : Order) :
    Except Overflow (Option Outcome × Exchange) :=
  let (id, exchange) := exchange.acquire order.symbol
  if exchange.isReady id then exchange.placeAt now id order else .ok (none, exchange)

def onLive (exchange : Exchange) (symbol : String) (change : Market → Market) :
    Reply × Exchange :=
  match exchange.directory.find? symbol with
  | some id => (none, exchange.onMarket id change)
  | none => (some (.unknownSymbol symbol), exchange)

def apply (exchange : Exchange) (now : Instant) : Command → Except Overflow (Reply × Exchange)
  | .placeOrder order => do
    let (_, exchange) ← exchange.place now order
    return (none, exchange)
  | .cancelOrder request => do
    let (id, exchange) := exchange.acquire request.symbol
    let (_, exchange) ← exchange.cancelAt id request
    return (none, exchange)
  | .haltSymbol symbol => .ok (exchange.onLive symbol Market.halt)
  | .resumeSymbol symbol => .ok (exchange.onLive symbol Market.resume)
  | .markReady symbol =>
    let (id, exchange) := exchange.acquire symbol
    .ok (none, exchange.onMarket id fun market => market.setReady true)
  | .removeSymbol symbol =>
    match exchange.directory.remove? symbol with
    | some (_, directory) => .ok (none, { exchange with directory })
    | none => .ok (some (.unknownSymbol symbol), exchange)

end Exchange

end SpotExchange
