import SpotExchange.Proofs.OrderFill
import SpotExchange.Wire.Command

/-!
What an exchange is asked from outside: messages and commands, orders that are routed
by their symbol, and orders and cancellations for one market, live or removed.
-/

namespace SpotExchange

inductive Request where
  | message (bytes : ByteArray)
  | command (command : Command)
  | place (order : Order)
  | placeAt (id : MarketId) (order : Order)
  | cancelAt (id : MarketId) (request : CancelRequest)

inductive Response where
  | reply (reply : Reply)
  | outcome (outcome : Option Outcome)
  | removed (order : Option Order)
  deriving DecidableEq

abbrev Log := List (Request × Response)

namespace Exchange

def serve (exchange : Exchange) (now : Instant) : Request → Except Overflow (Response × Exchange)
  | .message bytes => do
    let (reply, exchange) ← exchange.receive now bytes
    return (.reply reply, exchange)
  | .command command => do
    let (reply, exchange) ← exchange.apply now command
    return (.reply reply, exchange)
  | .place order => do
    let (outcome, exchange) ← exchange.place now order
    return (.outcome outcome, exchange)
  | .placeAt id order => do
    let (outcome, exchange) ← exchange.placeAt now id order
    return (.outcome outcome, exchange)
  | .cancelAt id request => do
    let (order, exchange) ← exchange.cancelAt id request
    return (.removed order, exchange)

/-- Serves requests one after the other, each at its time. -/
def serveAll (exchange : Exchange) :
    List (Instant × Request) → Except Overflow (Log × Exchange)
  | [] => .ok ([], exchange)
  | (now, request) :: rest => do
    let (response, exchange) ← exchange.serve now request
    let (log, exchange) ← exchange.serveAll rest
    return ((request, response) :: log, exchange)

theorem serveAll_cons {exchange last : Exchange} {now : Instant} {request : Request}
    {rest : List (Instant × Request)} {log : Log} :
    exchange.serveAll ((now, request) :: rest) = .ok (log, last) ↔
      ∃ response middle later, exchange.serve now request = .ok (response, middle) ∧
        middle.serveAll rest = .ok (later, last) ∧ log = (request, response) :: later := by
  simp only [serveAll, bind_eq_ok, return_eq_ok]
  constructor
  · rintro ⟨⟨response, middle⟩, first, ⟨later, final⟩, others, same⟩
    cases same
    exact ⟨response, middle, later, first, others, rfl⟩
  · rintro ⟨response, middle, later, first, others, rfl⟩
    exact ⟨(response, middle), first, (later, last), others, rfl⟩

end Exchange

end SpotExchange
