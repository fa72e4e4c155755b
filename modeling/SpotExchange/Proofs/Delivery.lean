import SpotExchange.Proofs.DeskHistory
import SpotExchange.Proofs.Requests

/-!
A sink that fails. Two exchanges serve the same requests, one with a sink that takes a
number of events and no more, the other with one that takes them all. They stay alike in
every market and every answer, and what the first delivers is the start of what the
second does.
-/

namespace SpotExchange

/-- A channel that took the first `room` events of all that were published. -/
def Sink.first (room : Nat) (published : List Event) : Sink :=
  .channel (some (room - published.length)) (published.take room).toArray

theorem Sink.publish_first (room : Nat) (published : List Event) (event : Event) :
    (Sink.first room published).publish event =
      (decide (published.length < room), Sink.first room (published ++ [event])) := by
  by_cases fits : published.length < room
  · obtain ⟨left, same⟩ := Nat.exists_eq_add_of_lt fits
    have before : room - published.length = left + 1 := by omega
    have after : room - (published.length + 1) = left := by omega
    simp [first, before, after, publish, fits, List.take_append, List.take_of_length_le fits.le]
  · have before : room - published.length = 0 := by omega
    have after : room - (published.length + 1) = 0 := by omega
    simp [first, before, after, publish, fits, List.take_append]

/-- Once an event was not taken no later one would be, so stopping there skips nothing. -/
theorem Sink.publishAll_first (room : Nat) (published events : List Event) :
    ((Sink.first room published).publishAll events).2 = Sink.first room (published ++ events) := by
  induction events generalizing published with
  | nil => simp [publishAll]
  | cons event rest ih =>
      rw [publishAll, publish_first]
      by_cases fits : published.length < room
      · simp [fits, ih]
      · have before : room - published.length = 0 := by omega
        have full (more : List Event) :
            Sink.first room (published ++ more) = Sink.first room published := by
          have after : room - (published.length + more.length) = 0 := by omega
          simp [first, before, after, List.take_append]
        simp [fits, full]

def Metrics.withoutFailures (metrics : Metrics) : Metrics := { metrics with sinkFailures := [] }

structure Desk.Lags (room : Nat) (limited unlimited : Desk) : Prop where
  batch : limited.maxTradeBatch = unlimited.maxTradeBatch
  metrics : limited.metrics.withoutFailures = unlimited.metrics.withoutFailures
  sinks : ∃ published : List Event, limited.sink = .first room published ∧
    unlimited.sink = .channel none published.toArray

namespace Desk

variable {room : Nat} {limited unlimited : Desk}

theorem Lags.count (lags : Lags room limited unlimited) (change : Metrics → Metrics)
    (blind : ∀ metrics : Metrics,
      (change metrics).withoutFailures = (change metrics.withoutFailures).withoutFailures) :
    Lags room { limited with metrics := change limited.metrics }
      { unlimited with metrics := change unlimited.metrics } where
  batch := lags.batch
  metrics := by
    simp only
    rw [blind, lags.metrics, ← blind]
  sinks := lags.sinks

theorem Lags.publishCounted (lags : Lags room limited unlimited) (symbol : String)
    (events : List Event) : Lags room (limited.publishCounted symbol events)
      (unlimited.publishCounted symbol events) := by
  obtain ⟨published, bounded, unbounded⟩ := lags.sinks
  have delivered := Sink.publishAll_first room published events
  rw [publishCounted_unbounded unbounded]
  cases result : (Sink.first room published).publishAll events with
  | mk taken sink =>
      rw [result] at delivered
      cases taken <;> simp only [Desk.publishCounted, Desk.publish, bounded, result] <;>
        exact ⟨lags.batch, lags.metrics, published ++ events, delivered, by simp⟩

theorem Lags.record (lags : Lags room limited unlimited) (market : Market) (outcome : Outcome) :
    Lags room (limited.record market outcome) (unlimited.record market outcome) := by
  cases outcome with
  | refused reason =>
      exact lags.count (fun metrics =>
        (metrics.countPass market.symbol).countOrder reason.label market.symbol) fun _ => rfl
  | processed report =>
      have counted := lags.count (fun metrics =>
        ((metrics.countPass market.symbol).countOrder "processed" market.symbol).countTrades
          market.symbol report.trades.length) (by
            intro metrics
            unfold Metrics.countTrades
            split <;> rfl)
      have events : market.reportEvents limited.maxTradeBatch report =
          market.reportEvents unlimited.maxTradeBatch report := by rw [lags.batch]
      simp only [Desk.record]
      rw [events]
      exact counted.publishCounted market.symbol _

end Desk

/-- Two exchanges with the same markets, whose desks published the same events. -/
structure Exchange.Lags (room : Nat) (limited unlimited : Exchange) : Prop where
  directory : limited.directory = unlimited.directory
  desks : limited.desk.Lags room unlimited.desk

/-- Two computations that fail alike, or return the same and leave exchanges that
differ in their sinks alone. -/
inductive Together (room : Nat) {α : Type} : Except Overflow (α × Exchange) →
    Except Overflow (α × Exchange) → Prop
  | failed (cause : Overflow) : Together room (.error cause) (.error cause)
  | done (value : α) {limited unlimited : Exchange} (lags : Exchange.Lags room limited unlimited) :
      Together room (.ok (value, limited)) (.ok (value, unlimited))

theorem Together.bind {room : Nat} {α β : Type} {first second : Except Overflow (α × Exchange)}
    {next : α × Exchange → Except Overflow (β × Exchange)} (both : Together room first second)
    (more : ∀ value {limited unlimited : Exchange}, limited.Lags room unlimited →
      Together room (next (value, limited)) (next (value, unlimited))) :
    Together room (first >>= next) (second >>= next) := by
  cases both with
  | failed cause => exact .failed cause
  | done value lags => exact more value lags

theorem Together.relabel {room : Nat} {α β : Type} {first second : Except Overflow (α × Exchange)}
    (both : Together room first second) (label : α → β) :
    Together room (do let (value, exchange) ← first; return (label value, exchange))
      (do let (value, exchange) ← second; return (label value, exchange)) :=
  both.bind fun value _ _ lags => .done (label value) lags

namespace Exchange

section Steps
variable {room : Nat} {limited unlimited : Exchange} (lags : Lags room limited unlimited)
include lags

theorem placeAt_together (now : Instant) (id : MarketId) (order : Order) :
    Together room (limited.placeAt now id order) (unlimited.placeAt now id order) := by
  unfold placeAt
  rw [lags.directory]
  cases unlimited.directory.market? id with
  | none => exact .done none lags
  | some market =>
      simp only [Desk.place]
      cases market.trade now order with
      | error cause => exact .failed cause
      | ok result => exact .done (some result.1) ⟨rfl, lags.desks.record result.2 result.1⟩

theorem cancelAt_together (id : MarketId) (request : CancelRequest) :
    Together room (limited.cancelAt id request) (unlimited.cancelAt id request) := by
  unfold cancelAt
  rw [lags.directory]
  cases unlimited.directory.market? id with
  | none => exact .done none lags
  | some market =>
      simp only [Desk.cancel]
      cases market.cancel request with
      | error cause => exact .failed cause
      | ok result =>
          obtain ⟨removed, after⟩ := result
          cases removed with
          | none => exact .done none ⟨rfl, lags.desks⟩
          | some order => exact .done (some order) ⟨rfl, lags.desks.publishCounted _ _⟩

theorem Lags.acquire (symbol : String) :
    (limited.acquire symbol).1 = (unlimited.acquire symbol).1 ∧
      Lags room (limited.acquire symbol).2 (unlimited.acquire symbol).2 := by
  unfold Exchange.acquire
  rw [lags.directory]
  exact ⟨rfl, rfl, lags.desks⟩

theorem Lags.onMarket (id : MarketId) (change : Market → Market) :
    Lags room (limited.onMarket id change) (unlimited.onMarket id change) := by
  unfold Exchange.onMarket
  rw [lags.directory]
  split
  · exact ⟨rfl, lags.desks⟩
  · exact lags

theorem onLive_together (symbol : String) (change : Market → Market) :
    Together room (.ok (limited.onLive symbol change)) (.ok (unlimited.onLive symbol change)) := by
  unfold onLive
  rw [lags.directory]
  split
  · exact .done none (lags.onMarket _ change)
  · exact .done _ lags

theorem Lags.isReady (id : MarketId) : limited.isReady id = unlimited.isReady id := by
  unfold Exchange.isReady
  rw [lags.directory]

theorem place_together (now : Instant) (order : Order) :
    Together room (limited.place now order) (unlimited.place now order) := by
  obtain ⟨same, acquired⟩ := lags.acquire order.symbol
  simp only [place]
  rw [same, acquired.isReady]
  split
  · exact placeAt_together acquired now _ order
  · exact .done none acquired

theorem apply_together (now : Instant) (command : Command) :
    Together room (limited.apply now command) (unlimited.apply now command) := by
  cases command with
  | placeOrder order =>
      exact (place_together lags now order).bind fun _ _ _ later => .done none later
  | cancelOrder request =>
      obtain ⟨same, acquired⟩ := lags.acquire request.symbol
      simp only [apply]
      rw [same]
      exact (cancelAt_together acquired _ request).bind fun _ _ _ later => .done none later
  | haltSymbol symbol => exact onLive_together lags symbol Market.halt
  | resumeSymbol symbol => exact onLive_together lags symbol Market.resume
  | markReady symbol =>
      obtain ⟨same, acquired⟩ := lags.acquire symbol
      simp only [apply]
      rw [same]
      exact .done none (acquired.onMarket _ _)
  | removeSymbol symbol =>
      simp only [apply]
      rw [lags.directory]
      split
      · exact .done none ⟨rfl, lags.desks⟩
      · exact .done _ lags

/-- However the sink of the one fares, both exchanges answer a request alike. -/
theorem serve_together (now : Instant) (request : Request) :
    Together room (limited.serve now request) (unlimited.serve now request) := by
  cases request with
  | message bytes =>
      have received : Together room (limited.receive now bytes) (unlimited.receive now bytes) := by
        unfold receive applyRead
        split
        · exact apply_together lags now _
        · exact .done _ lags
      exact received.relabel Response.reply
  | command command => exact (apply_together lags now command).relabel Response.reply
  | place order => exact (place_together lags now order).relabel Response.outcome
  | placeAt id order => exact (placeAt_together lags now id order).relabel Response.outcome
  | cancelAt id request => exact (cancelAt_together lags id request).relabel Response.removed

end Steps

theorem serveAll_together {room : Nat} {limited unlimited : Exchange}
    (lags : Lags room limited unlimited) (requests : List (Instant × Request)) :
    Together room (limited.serveAll requests) (unlimited.serveAll requests) := by
  induction requests generalizing limited unlimited with
  | nil => exact .done [] lags
  | cons entry rest ih =>
      exact (serve_together lags entry.1 entry.2).bind fun response _ _ served =>
        (ih served).bind fun log _ _ later => .done _ later

/-- An exchange as far as it does not depend on how its sink fares: the directory with
all its markets, and all counts but those of failed deliveries. -/
def served (exchange : Exchange) : Directory × Metrics :=
  (exchange.directory, exchange.desk.metrics.withoutFailures)

end Exchange

/-- Failed deliveries never touch matching, and what is delivered is a beginning of what
there was to deliver. For every directory and all requests, an exchange whose sink takes
`room` events and then fails for good returns what it returns with a sink that never
fails, with the same markets, flags and listings afterwards, and it delivers the first
`room` events of the others. This holds for every list of requests, so after each of them. -/
theorem delivery_is_prefix (directory : Directory) (batch room : Nat) (metrics : Metrics)
    (requests : List (Instant × Request)) :
    ((Exchange.mk directory ⟨batch, .channel (some room) #[], metrics⟩).serveAll requests).map
        (fun (log, last) => (log, last.served, last.desk.sink.drain.1)) =
      ((Exchange.mk directory ⟨batch, .openChannel, metrics⟩).serveAll requests).map
        fun (log, last) => (log, last.served, last.desk.sink.drain.1.take room) := by
  have start : Exchange.Lags room ⟨directory, ⟨batch, .channel (some room) #[], metrics⟩⟩
      ⟨directory, ⟨batch, .openChannel, metrics⟩⟩ :=
    ⟨rfl, rfl, rfl, [], by simp [Sink.first], rfl⟩
  have both := Exchange.serveAll_together start requests
  generalize (Exchange.mk directory ⟨batch, .channel (some room) #[], metrics⟩).serveAll requests =
    limited, (Exchange.mk directory ⟨batch, .openChannel, metrics⟩).serveAll requests =
    unlimited at both
  cases both with
  | failed cause => rfl
  | done log lags =>
      obtain ⟨published, bounded, unbounded⟩ := lags.desks.sinks
      simp [Except.map, Exchange.served, lags.directory, lags.desks.metrics, bounded, unbounded,
        Sink.first, Sink.drain]

end SpotExchange
