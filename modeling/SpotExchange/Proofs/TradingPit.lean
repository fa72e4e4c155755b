import SpotExchange.Proofs.DirectoryShape
import SpotExchange.Proofs.Requests
import SpotExchange.Proofs.Redated

/-!
The pit of a symbol: the terms its next market is opened on, its live market, and what
was counted and published of it. A pit can serve the requests for its symbol by itself.
An exchange is all its pits side by side: a request for one symbol does to the pit of
that symbol what the pit does with it, and to no other pit anything.
-/

namespace SpotExchange

def Event.symbol : Event → String
  | .trades symbol _ => symbol
  | .completed symbol _ => symbol
  | .cancelled symbol _ => symbol
  | .depth snapshot => snapshot.symbol

def Command.symbol : Command → String
  | .placeOrder order => order.symbol
  | .cancelOrder request => request.symbol
  | .haltSymbol symbol => symbol
  | .resumeSymbol symbol => symbol
  | .markReady symbol => symbol
  | .removeSymbol symbol => symbol

/-- What was handed over of a symbol, in order and without dates. -/
def Sink.about (symbol : String) : Sink → Sink
  | .log => .log
  | .channel room delivered =>
    .channel room ((delivered.filter fun event => event.symbol = symbol).map Event.undated)

def Metrics.about (symbol : String) (metrics : Metrics) : Metrics where
  orders := metrics.orders.filter fun entry => entry.1.2 = symbol
  trades := metrics.trades.filter fun entry => entry.1 = symbol
  sinkFailures := metrics.sinkFailures.filter fun entry => entry.1 = symbol
  passes := metrics.passes.filter fun entry => entry.1 = symbol

def Desk.about (symbol : String) (desk : Desk) : Desk :=
  { desk with sink := desk.sink.about symbol, metrics := desk.metrics.about symbol }

section Counting
variable {α : Type} [DecidableEq α]

theorem Counter.filter_add (keeps : α → Bool) (label : α) (count : Nat) (counter : Counter α) :
    (counter.add label count).filter (fun entry => keeps entry.1) =
      if keeps label then Counter.add label count (counter.filter fun entry => keeps entry.1)
      else counter.filter fun entry => keeps entry.1 := by
  induction counter with
  | nil => by_cases own : keeps label <;> simp [add, own]
  | cons entry rest ih =>
      by_cases own : keeps label <;> by_cases same : entry.1 = label <;>
        by_cases kept : keeps entry.1 <;> simp_all [add]

end Counting

namespace Metrics

variable (metrics : Metrics) (symbol other : String)

theorem about_countPass : (metrics.countPass symbol).about other =
    if other = symbol then (metrics.about other).countPass symbol else metrics.about other := by
  have passes := Counter.filter_add (fun label => label = other) symbol 1 metrics.passes
  by_cases own : other = symbol
  · simp_all [about, countPass]
  · simp_all [about, countPass, eq_comm]

theorem about_countOrder (outcome : String) : (metrics.countOrder outcome symbol).about other =
    if other = symbol then (metrics.about other).countOrder outcome symbol
    else metrics.about other := by
  have orders := Counter.filter_add (fun label : String × String => label.2 = other)
    (outcome, symbol) 1 metrics.orders
  by_cases own : other = symbol
  · simp_all [about, countOrder]
  · simp_all [about, countOrder, eq_comm]

theorem about_countTrades (count : Nat) : (metrics.countTrades symbol count).about other =
    if other = symbol then (metrics.about other).countTrades symbol count
    else metrics.about other := by
  have trades := Counter.filter_add (fun label => label = other) symbol count metrics.trades
  unfold countTrades
  by_cases none : count = 0
  · simp [none]
  · by_cases own : other = symbol
    · simp_all [about]
    · simp_all [about, eq_comm]

end Metrics

namespace Market

variable (market : Market)

theorem symbol_of_reportEvents (batch : Nat) (report : Report) :
    ∀ event ∈ market.reportEvents batch report, event.symbol = market.symbol := by
  intro event member
  rcases List.mem_append.mp member with earlier | depth
  · rcases List.mem_append.mp earlier with trades | completed
    · obtain ⟨_, -, rfl⟩ := List.mem_map.mp trades
      rfl
    · split_ifs at completed
      · cases completed
      · obtain rfl := List.mem_singleton.mp completed
        rfl
  · obtain ⟨_, -, rfl⟩ := List.mem_map.mp depth
    rfl

theorem symbol_of_cancellationEvents (order : Order) :
    ∀ event ∈ market.cancellationEvents order, event.symbol = market.symbol := by
  intro event member
  cases kind : order.kind <;>
    simp only [cancellationEvents, cancelledEvents, kind, List.isEmpty_cons, Bool.false_eq_true,
      ↓reduceIte, List.mem_append, List.mem_singleton, List.not_mem_nil, or_false] at member
  · rcases member with rfl | rfl <;> rfl
  · rw [member]
    rfl

theorem listing_of_matchOrder {now : Instant} {order : Order} {pass : Pass} {later : Market}
    (matched : market.matchOrder now order = .ok (pass, later)) :
    later.listing = market.listing := by
  have by_ladder {market later : Market} {limit : Option Decimal} {first last : Pass}
      (walk : market.matchLadder now limit first = .ok (last, later)) :
      later.listing = market.listing := by
    unfold matchLadder at walk
    split_ifs at walk
    · cases walk
      rfl
    · obtain ⟨_, -, same⟩ := (bind_eq_ok _ _ _).mp walk
      cases same
      rfl
  unfold matchOrder at matched
  cases kind : order.kind with
  | market =>
      rw [kind] at matched
      exact by_ladder matched
  | limit =>
      simp only [kind, bind_eq_ok] at matched
      obtain ⟨⟨_, shared⟩, apportioned, ⟨_, swept⟩, walk, queued⟩ := matched
      have first : shared.listing = market.listing := by
        unfold matchApportioned at apportioned
        split_ifs at apportioned
        · obtain ⟨_, -, same⟩ := (bind_eq_ok _ _ _).mp apportioned
          cases same
          rfl
        · cases apportioned
          rfl
      have last : later.listing = swept.listing := by
        unfold matchQueue at queued
        split_ifs at queued
        · cases queued
          rfl
        · obtain ⟨_, -, same⟩ := (bind_eq_ok _ _ _).mp queued
          cases same
          rfl
      exact last.trans ((by_ladder walk).trans first)

theorem listing_of_trade {now : Instant} {order : Order} {outcome : Outcome} {later : Market}
    (traded : market.trade now order = .ok (outcome, later)) : later.listing = market.listing := by
  rcases trade_cases traded with ⟨_, -, -, rfl⟩ | ⟨_, _, after, -, -, matched, ended⟩
  · rfl
  · obtain ⟨-, frame, -⟩ := finish_cases ended
    have kept : later.listing = after.listing := by rw [frame]
    exact kept.trans (market.listing_of_matchOrder matched)

theorem listing_of_cancel {request : CancelRequest} {removed : Option Order} {later : Market}
    (cancelled : market.cancel request = .ok (removed, later)) :
    later.listing = market.listing := by
  rcases cancel_cases cancelled with ⟨-, rfl⟩ | ⟨_, -, -, -, frame, -⟩
  · rfl
  · rw [frame]

theorem cancellationEvents_undated (order : Order) :
    (market.cancellationEvents order).map Event.undated = market.cancellationEvents order := by
  cases kind : order.kind <;> simp [cancellationEvents, cancelledEvents, kind, Event.undated]

end Market

namespace Desk

variable {desk : Desk} {sent : Array Event} (sink : desk.sink = .channel none sent)
include sink

theorem about_publishCounted {symbol : String} {events : List Event}
    (own : ∀ event ∈ events, event.symbol = symbol) (other : String) :
    (desk.publishCounted symbol events).about other =
      if other = symbol then (desk.about other).publishCounted symbol (events.map Event.undated)
      else desk.about other := by
  have about : (desk.about other).sink = .channel none
      ((sent.filter fun event => event.symbol = other).map Event.undated) := by
    rw [Desk.about, sink, Sink.about]
  rw [publishCounted_unbounded sink, publishCounted_unbounded about]
  by_cases same : other = symbol
  · have all : events.filter (fun event => event.symbol = other) = events :=
      List.filter_eq_self.mpr fun event member => by simpa [same] using own event member
    simp [Desk.about, Sink.about, same ▸ all, same]
  · have none : events.filter (fun event => event.symbol = other) = [] :=
      List.filter_eq_nil_iff.mpr fun event member => by
        simpa [own event member] using Ne.symm same
    simp [Desk.about, Sink.about, sink, none, same]

theorem about_record (market : Market) (outcome : Outcome) (other : String) :
    (desk.record market outcome).about other =
      if other = market.symbol then (desk.about other).record market outcome.undated
      else desk.about other := by
  cases outcome with
  | refused reason =>
      have counted := Metrics.about_countOrder (desk.metrics.countPass market.symbol) market.symbol
        other reason.label
      rw [Metrics.about_countPass] at counted
      by_cases own : other = market.symbol
      · simp_all [record, Desk.about, Outcome.undated]
      · simp_all [record, Desk.about]
  | processed report =>
      have counted := Metrics.about_countTrades ((desk.metrics.countPass market.symbol).countOrder
        "processed" market.symbol) market.symbol other report.trades.length
      rw [Metrics.about_countOrder, Metrics.about_countPass] at counted
      have published (metrics : Metrics) :=
        @about_publishCounted { desk with metrics } sent sink market.symbol _
          (market.symbol_of_reportEvents desk.maxTradeBatch report) other
      simp only [record]
      rw [published, Market.reportEvents_undated]
      by_cases own : other = market.symbol
      · simp_all [Desk.about, Outcome.undated, Report.undated]
      · simp_all [Desk.about]

end Desk

/-- What there is of one symbol: the terms its next market is opened on, its live
market, and what was counted and published of it. -/
structure Pit where
  listing : Listing
  market : Option Market
  desk : Desk

namespace Pit

def opened (pit : Pit) : Market := pit.market.getD (.ofListing pit.listing)

def place (pit : Pit) (now : Instant) (order : Order) : Except Overflow (Option Outcome × Pit) :=
  if pit.opened.ready then do
    let (outcome, market, desk) ← pit.desk.place now pit.opened order
    return (some outcome, { pit with market := some market, desk })
  else .ok (none, { pit with market := some pit.opened })

def cancel (pit : Pit) (request : CancelRequest) : Except Overflow (Option Order × Pit) := do
  let (order, market, desk) ← pit.desk.cancel pit.opened request
  return (order, { pit with market := some market, desk })

def onLive (pit : Pit) (symbol : String) (change : Market → Market) : Reply × Pit :=
  match pit.market with
  | some market => (none, { pit with market := some (change market) })
  | none => (some (.unknownSymbol symbol), pit)

def apply (pit : Pit) (now : Instant) : Command → Except Overflow (Reply × Pit)
  | .placeOrder order => do
    let (_, pit) ← pit.place now order
    return (none, pit)
  | .cancelOrder request => do
    let (_, pit) ← pit.cancel request
    return (none, pit)
  | .haltSymbol symbol => .ok (pit.onLive symbol Market.halt)
  | .resumeSymbol symbol => .ok (pit.onLive symbol Market.resume)
  | .markReady _ => .ok (none, { pit with market := some (pit.opened.setReady true) })
  | .removeSymbol symbol =>
    match pit.market with
    | some _ => .ok (none, { pit with market := none })
    | none => .ok (some (.unknownSymbol symbol), pit)

/-- Serves a request for its symbol. A pit knows no identifiers, so a request by
identifier finds nothing here. -/
def serve (pit : Pit) (now : Instant) : Request → Except Overflow (Response × Pit)
  | .message bytes =>
    match Command.ofBytes? now bytes with
    | some command => do
      let (reply, pit) ← pit.apply now command
      return (.reply reply, pit)
    | none => .ok (.reply (some .undecodable), pit)
  | .command command => do
    let (reply, pit) ← pit.apply now command
    return (.reply reply, pit)
  | .place order => do
    let (outcome, pit) ← pit.place now order
    return (.outcome outcome, pit)
  | .placeAt _ _ => .ok (.outcome none, pit)
  | .cancelAt _ _ => .ok (.removed none, pit)

end Pit

namespace Exchange

def pit (exchange : Exchange) (symbol : String) : Pit where
  listing := exchange.directory.listing symbol
  market := exchange.directory.live? symbol
  desk := exchange.desk.about symbol

/-- An exchange that comes about and whose sink takes every event. -/
structure Sound (exchange : Exchange) : Prop where
  directory : exchange.directory.Sound
  unbounded : ∃ sent, exchange.desk.sink = .channel none sent

/-- An exchange after something that concerned one symbol: its pit is another one now,
all others are as they were. -/
structure Moves (symbol : String) (exchange : Exchange) (pit : Pit) (later : Exchange) :
    Prop where
  sound : later.Sound
  own : later.pit symbol = pit
  others : ∀ other, other ≠ symbol → later.pit other = exchange.pit other

section Moving
variable {symbol : String} {exchange later : Exchange} {id : MarketId}

theorem Sound.stays (sound : exchange.Sound) :
    Moves symbol exchange (exchange.pit symbol) exchange :=
  ⟨sound, rfl, fun _ _ => rfl⟩

theorem Moves.trans {middle : Exchange} {pit : Pit} {first : Pit}
    (one : Moves symbol exchange first middle) (two : Moves symbol middle pit later) :
    Moves symbol exchange pit later :=
  ⟨two.sound, two.own, fun other apart => (two.others other apart).trans (one.others other apart)⟩

theorem Sound.moves (sound : exchange.Sound) (found : exchange.directory.find? symbol = some id)
    {before market : Market} {desk : Desk} (present : exchange.directory.market? id = some before)
    (same : market.symbol = before.symbol) (unbounded : ∃ sent, desk.sink = .channel none sent)
    (others : ∀ other, other ≠ symbol → desk.about other = exchange.desk.about other) :
    Moves symbol exchange
      { exchange.pit symbol with market := some market, desk := desk.about symbol }
      ⟨exchange.directory.put id market, desk⟩ where
  sound := ⟨sound.directory.put present same, unbounded⟩
  own := by
    have live := sound.directory.live?_put found market symbol
    rw [if_pos rfl] at live
    simp only [pit, live]
    rfl
  others := by
    intro other apart
    have live := sound.directory.live?_put found market other
    rw [if_neg apart] at live
    simp only [pit, live, others other apart]
    rfl

theorem Sound.removes (sound : exchange.Sound) {directory : Directory}
    (removed : exchange.directory.remove? symbol = some (id, directory)) :
    Moves symbol exchange { exchange.pit symbol with market := none }
      { exchange with directory } where
  sound := ⟨sound.directory.remove removed, sound.unbounded⟩
  own := by
    have gone := Directory.live?_of_remove? removed symbol
    rw [if_pos rfl] at gone
    simp only [pit, gone, (Directory.markets_of_remove? removed).2]
  others := by
    intro other apart
    have kept := Directory.live?_of_remove? removed other
    rw [if_neg apart] at kept
    simp only [pit, kept, (Directory.markets_of_remove? removed).2]

theorem Sound.acquire (sound : exchange.Sound) (symbol : String) :
    Moves symbol exchange
        { exchange.pit symbol with market := some (exchange.pit symbol).opened }
        (exchange.acquire symbol).2 ∧
      (exchange.acquire symbol).2.directory.find? symbol = some (exchange.acquire symbol).1 ∧
      (exchange.acquire symbol).2.directory.market? (exchange.acquire symbol).1 =
        some (exchange.pit symbol).opened := by
  obtain ⟨found, listing, live⟩ := sound.directory.acquire_live symbol
  have own := live symbol
  rw [if_pos rfl] at own
  refine ⟨⟨⟨sound.directory.acquire symbol, sound.unbounded⟩, ?_, ?_⟩, found, ?_⟩
  · simp only [pit, Exchange.acquire, own, listing, Pit.opened]
  · intro other apart
    have there := live other
    rw [if_neg apart] at there
    simp only [pit, Exchange.acquire, there, listing]
  · rw [Directory.live?, found, Option.bind_some] at own
    exact own

end Moving

/-- An exchange and the pit of a symbol, each asked the same: both fail alike, or the
pit returns the image of what the exchange returns and is its pit from then on. -/
inductive Tracks (symbol : String) (exchange : Exchange) {α β : Type} (image : α → β) :
    Except Overflow (α × Exchange) → Except Overflow (β × Pit) → Prop
  | failed (cause : Overflow) : Tracks symbol exchange image (.error cause) (.error cause)
  | done (value : α) {later : Exchange} {pit : Pit} (moves : Moves symbol exchange pit later) :
      Tracks symbol exchange image (.ok (value, later)) (.ok (image value, pit))

section Tracking
variable {symbol : String} {exchange : Exchange} {α β γ δ : Type} {image : α → β}

theorem Tracks.from {middle : Exchange} {pit : Pit} {result : Except Overflow (α × Exchange)}
    {own : Except Overflow (β × Pit)} (moves : Moves symbol exchange pit middle)
    (tracks : Tracks symbol middle image result own) : Tracks symbol exchange image result own := by
  cases tracks with
  | failed cause => exact .failed cause
  | done value later => exact .done value (moves.trans later)

theorem Tracks.relabel {result : Except Overflow (α × Exchange)}
    {other : Except Overflow (β × Pit)} (tracks : Tracks symbol exchange image result other)
    (relabelled : γ → δ) (label : α → γ) (own : β → δ)
    (agree : ∀ value, own (image value) = relabelled (label value)) :
    Tracks symbol exchange relabelled
      (do let (value, exchange) ← result; return (label value, exchange))
      (do let (value, pit) ← other; return (own value, pit)) := by
  cases tracks with
  | failed cause => exact .failed cause
  | done value moves =>
      have both : own (image value) = _ := agree value
      simp only [bind, Except.bind, both]
      exact .done (label value) moves

end Tracking

section Steps
variable {symbol : String} {exchange : Exchange} {here : MarketId} {market : Market}
  (sound : exchange.Sound) (found : exchange.directory.find? symbol = some here)
  (present : exchange.directory.market? here = some market)
include sound found present

theorem placeAt_tracks (now : Instant) (order : Order) :
    Tracks symbol exchange (Option.map Outcome.undated) (exchange.placeAt now here order)
      (do
        let (outcome, market, desk) ← (exchange.pit symbol).desk.place default market order
        return (some outcome, { exchange.pit symbol with market := some market, desk })) := by
  obtain ⟨sent, sink⟩ := sound.unbounded
  obtain ⟨_, same, -, trades⟩ := sound.directory.live? found
  obtain rfl := Option.some.inj (present.symm.trans same)
  have at_default := market.trade_undated now order
  simp only [placeAt, present, Desk.place]
  cases traded : market.trade now order with
  | error cause =>
      rw [traded] at at_default
      rw [← at_default]
      exact .failed cause
  | ok result =>
      obtain ⟨outcome, after⟩ := result
      rw [traded] at at_default
      rw [← at_default]
      have symbol_eq : after.symbol = market.symbol :=
        congrArg Listing.name (market.listing_of_trade traded)
      obtain rfl : after.symbol = symbol := symbol_eq.trans trades
      have about := Desk.about_record sink after outcome
      have moves := sound.moves found present symbol_eq
        ⟨_, Desk.tell_unbounded sink after (.outcome outcome)⟩
        (fun other apart => (about other).trans (if_neg apart))
      rw [Desk.tell, about, if_pos rfl] at moves
      exact .done (some outcome) moves

theorem cancelAt_tracks (request : CancelRequest) :
    Tracks symbol exchange id (exchange.cancelAt here request)
      (do
        let (order, market, desk) ← (exchange.pit symbol).desk.cancel market request
        return (order, { exchange.pit symbol with market := some market, desk })) := by
  obtain ⟨sent, sink⟩ := sound.unbounded
  obtain ⟨_, same, -, trades⟩ := sound.directory.live? found
  obtain rfl := Option.some.inj (present.symm.trans same)
  simp only [cancelAt, present, Desk.cancel]
  cases cancelled : market.cancel request with
  | error cause => exact .failed cause
  | ok result =>
      obtain ⟨removed, after⟩ := result
      have symbol_eq : after.symbol = market.symbol :=
        congrArg Listing.name (market.listing_of_cancel cancelled)
      obtain rfl : after.symbol = symbol := symbol_eq.trans trades
      cases removed with
      | none =>
          exact .done none (sound.moves found present symbol_eq ⟨sent, sink⟩ fun _ _ => rfl)
      | some order =>
          have about := Desk.about_publishCounted sink (after.symbol_of_cancellationEvents order)
          have moves := sound.moves found present symbol_eq
            ⟨_, Desk.tell_unbounded sink after (.removed (some order))⟩
            (fun other apart => (about other).trans (if_neg apart))
          rw [Desk.tell, about, if_pos rfl, Market.cancellationEvents_undated] at moves
          exact .done (some order) moves

theorem onMarket_moves (change : Market → Market)
    (same : ∀ market : Market, (change market).symbol = market.symbol) :
    Moves symbol exchange { exchange.pit symbol with market := some (change market) }
      (exchange.onMarket here change) := by
  have moves := sound.moves found present (same market) sound.unbounded fun _ _ => rfl
  simp only [onMarket, present]
  exact moves

end Steps

section Requests
variable {symbol : String} {exchange : Exchange} (sound : exchange.Sound)
include sound

theorem onLive_tracks {change : Market → Market}
    (same : ∀ market : Market, (change market).symbol = market.symbol) :
    Tracks symbol exchange id (.ok (exchange.onLive symbol change))
      (.ok ((exchange.pit symbol).onLive symbol change)) := by
  cases found : exchange.directory.find? symbol with
  | none =>
      have absent : (exchange.pit symbol).market = none := by
        rw [pit, Directory.live?, found, Option.bind_none]
      simp only [onLive, found, Pit.onLive, absent]
      exact .done _ sound.stays
  | some here =>
      obtain ⟨market, present, live, -⟩ := sound.directory.live? found
      have there : (exchange.pit symbol).market = some market := live
      simp only [onLive, found, Pit.onLive, there]
      exact .done none (onMarket_moves sound found present change same)

theorem place_tracks (now : Instant) (order : Order) :
    Tracks order.symbol exchange (Option.map Outcome.undated) (exchange.place now order)
      ((exchange.pit order.symbol).place default order) := by
  obtain ⟨acquired, found, present⟩ := sound.acquire order.symbol
  have ready : (exchange.acquire order.symbol).2.isReady (exchange.acquire order.symbol).1 =
      (exchange.pit order.symbol).opened.ready := by
    simp only [isReady, present]
  simp only [place, ready, Pit.place]
  split
  · have placed := placeAt_tracks acquired.sound found present now order
    rw [acquired.own] at placed
    exact placed.from acquired
  · exact .done none acquired

/-- A command does to the pit of its symbol what the pit does with it. -/
theorem apply_tracks (now : Instant) (command : Command) :
    Tracks command.symbol exchange id (exchange.apply now command)
      ((exchange.pit command.symbol).apply default command) := by
  cases command with
  | placeOrder order =>
      exact (place_tracks sound now order).relabel id (fun _ => none) (fun _ => none) fun _ => rfl
  | cancelOrder request =>
      obtain ⟨acquired, found, present⟩ := sound.acquire request.symbol
      have cancelled := cancelAt_tracks acquired.sound found present request
      rw [acquired.own] at cancelled
      exact (cancelled.from acquired).relabel id (fun _ => none) (fun _ => none) fun _ => rfl
  | haltSymbol symbol => exact onLive_tracks sound fun _ => rfl
  | resumeSymbol symbol => exact onLive_tracks sound fun _ => rfl
  | markReady symbol =>
      obtain ⟨acquired, found, present⟩ := sound.acquire symbol
      have moves := onMarket_moves acquired.sound found present (fun market => market.setReady true)
        fun _ => rfl
      rw [acquired.own] at moves
      exact .done none (acquired.trans moves)
  | removeSymbol symbol =>
      cases found : exchange.directory.find? symbol with
      | none =>
          have absent : (exchange.pit symbol).market = none := by
            rw [pit, Directory.live?, found, Option.bind_none]
          have kept : exchange.directory.remove? symbol = none := by
            rw [Directory.remove?, found, Option.map_none]
          simp only [apply, kept, Pit.apply, Command.symbol, absent]
          exact .done _ sound.stays
      | some here =>
          obtain ⟨market, -, live, -⟩ := sound.directory.live? found
          have there : (exchange.pit symbol).market = some market := live
          cases gone : exchange.directory.remove? symbol with
          | none => simp [Directory.remove?, found] at gone
          | some result =>
              obtain ⟨_, directory⟩ := result
              simp only [apply, gone, Pit.apply, Command.symbol, there]
              exact .done none (sound.removes gone)

end Requests

end Exchange

def Request.symbol? : Request → Option String
  | .message bytes => (Command.ofBytes? default bytes).map Command.symbol
  | .command given => some given.symbol
  | .place order => some order.symbol
  | .placeAt _ _ => none
  | .cancelAt _ _ => none

/-- A request for one symbol that is the same at all times: a message with a command
that says when its order was created, a command, or an order. -/
def Request.Explicit : Request → Prop
  | .message bytes => ∃ command, ∀ now, Command.ofBytes? now bytes = some command
  | .command _ => True
  | .place _ => True
  | .placeAt _ _ => False
  | .cancelAt _ _ => False

def Response.undated : Response → Response
  | .outcome given => .outcome (given.map Outcome.undated)
  | response => response

/-- An explicit request names a symbol, and does to the pit of that symbol what the pit
does with it. -/
theorem Exchange.serve_tracks {exchange : Exchange} (sound : exchange.Sound) (now : Instant)
    {request : Request} (explicit : request.Explicit) :
    ∃ symbol, request.symbol? = some symbol ∧
      Tracks symbol exchange Response.undated (exchange.serve now request)
        ((exchange.pit symbol).serve default request) := by
  cases request with
  | message bytes =>
      obtain ⟨command, read⟩ := explicit
      refine ⟨command.symbol, by rw [Request.symbol?, read, Option.map_some], ?_⟩
      have applied := (apply_tracks sound now command).relabel Response.undated Response.reply
        Response.reply fun _ => rfl
      simp only [serve, receive, read, Pit.serve]
      exact applied
  | command command =>
      exact ⟨_, rfl, (apply_tracks sound now command).relabel Response.undated Response.reply
        Response.reply fun _ => rfl⟩
  | place order =>
      exact ⟨_, rfl, (place_tracks sound now order).relabel Response.undated Response.outcome
        Response.outcome fun _ => rfl⟩
  | placeAt | cancelAt => exact explicit.elim

end SpotExchange
