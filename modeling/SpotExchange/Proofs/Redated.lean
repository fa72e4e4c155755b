import SpotExchange.Proofs.DeskHistory

/-!
Dates read on other clocks. Orders and trades carry the time they were made at, and only the
cutoff of an issuance window is ever compared with one, that of an order. So a clock that keeps
the dates of orders on their side of the cutoffs tells the same trading, but for the dates that
are written. The dates of trades are read by nothing, so they may follow a clock of their own;
one that shows the same time always leaves trades without a date.
-/

namespace SpotExchange

section Records
variable (placing trading : Instant → Instant)

def Order.redated (order : Order) : Order := { order with createdAt := placing order.createdAt }

def Trade.redated (trade : Trade) : Trade := { trade with createdAt := trading trade.createdAt }

def PriceLevel.redated (level : PriceLevel) : PriceLevel :=
  { level with orders := level.orders.map (Order.redated placing) }

def BySide.map {α β : Type} (image : α → β) (both : BySide α) : BySide β :=
  ⟨image both.buy, image both.sell⟩

def OrderBook.redated (book : OrderBook) : OrderBook :=
  ⟨book.ladders.map (List.map (PriceLevel.redated placing)),
    book.queues.map (List.map (Order.redated placing))⟩

def Market.redated (market : Market) : Market := { market with book := market.book.redated placing }

def Pass.redated (pass : Pass) : Pass :=
  { pass with
    taker := pass.taker.redated placing
    trades := pass.trades.map (Trade.redated trading)
    completed := pass.completed.map (Order.redated placing) }

def Report.redated (report : Report) : Report :=
  { report with
    trades := report.trades.map (Trade.redated trading)
    completed := report.completed.map (Order.redated placing)
    resting := report.resting.map (Order.redated placing) }

def Outcome.redated : Outcome → Outcome
  | .refused reason => .refused reason
  | .processed report => .processed (report.redated placing trading)

def Event.redated : Event → Event
  | .trades symbol made => .trades symbol (made.map (Trade.redated trading))
  | .completed symbol orders => .completed symbol (orders.map (Order.redated placing))
  | .cancelled symbol orders => .cancelled symbol (orders.map (Order.redated placing))
  | .depth snapshot => .depth snapshot

/-- A clock keeps to a listing if no time changes its side of the cutoff there. -/
def Listing.KeptBy (listing : Listing) : Prop :=
  ∀ window, listing.issuance = some window →
    ∀ time, placing time < window.cutoff ↔ time < window.cutoff

end Records

section Images
variable {α β γ δ : Type} {image : α → β} {result : γ → δ}

theorem map_return (value : γ) :
    (pure value : Except Overflow γ).map result = pure (result value) := rfl

/-- Computations that start with the same image, and go on alike from there. -/
theorem map_bind_congr {first : Except Overflow α} {second : Except Overflow β}
    {next : α → Except Overflow γ} {other : β → Except Overflow δ}
    (start : first.map image = second)
    (more : ∀ value, (next value).map result = other (image value)) :
    (first >>= next).map result = second >>= other := by
  subst start
  cases first with
  | error cause => rfl
  | ok value => exact more value

theorem map_bind_same {first : Except Overflow α} {next : α → Except Overflow γ}
    {other : α → Except Overflow δ} (more : ∀ value, (next value).map result = other value) :
    (first >>= next).map result = first >>= other := by
  cases first with
  | error cause => rfl
  | ok value => exact more value

theorem map_ite_congr {condition : Prop} [Decidable condition] {yes no : Except Overflow γ}
    {yes' no' : Except Overflow δ} (holds : yes.map result = yes') (fails : no.map result = no') :
    (if condition then yes else no).map result = if condition then yes' else no' := by
  split
  · exact holds
  · exact fails

end Images

section Twice
variable (clock later : Instant → Instant)

theorem Order.redated_comp :
    Order.redated later ∘ Order.redated clock = Order.redated (later ∘ clock) := rfl

theorem Trade.redated_comp :
    Trade.redated later ∘ Trade.redated clock = Trade.redated (later ∘ clock) := rfl

theorem PriceLevel.redated_comp :
    PriceLevel.redated later ∘ PriceLevel.redated clock = PriceLevel.redated (later ∘ clock) := by
  funext level
  simp [redated, Order.redated_comp]

theorem Market.redated_comp :
    Market.redated later ∘ Market.redated clock = Market.redated (later ∘ clock) := by
  funext market
  simp [redated, OrderBook.redated, BySide.map, PriceLevel.redated_comp, Order.redated_comp]

theorem Event.redated_comp :
    Event.redated later later ∘ Event.redated clock clock =
      Event.redated (later ∘ clock) (later ∘ clock) := by
  funext event
  cases event <;> simp [redated, Trade.redated_comp, Order.redated_comp]

end Twice

variable (placing trading : Instant → Instant)

namespace BySide
variable {α β : Type} (image : α → β) (both : BySide α) (side : Side)

@[simp] theorem get_map : (both.map image).get side = image (both.get side) := by
  cases side <;> rfl

theorem set_map (value : α) :
    (both.set side value).map image = (both.map image).set side (image value) := by
  cases side <;> rfl

end BySide

namespace Order
variable (order : Order)

theorem kind_redated : (order.redated placing).kind = order.kind := rfl

theorem settleStatus_redated :
    order.settleStatus.redated placing = (order.redated placing).settleStatus := by
  have completed : (order.redated placing).isCompleted = order.isCompleted := rfl
  unfold settleStatus
  rw [completed]
  split
  · rfl
  · exact apply_ite (redated placing) ..

theorem fill_redated (quantity money : Decimal) :
    (order.fill quantity money).map (redated placing) =
      (order.redated placing).fill quantity money :=
  map_ite_congr rfl (map_bind_same fun _ => map_bind_same fun _ =>
    congrArg Except.ok (settleStatus_redated placing _))

theorem cancel_redated : order.cancel.redated placing = (order.redated placing).cancel :=
  apply_ite (redated placing) ..

end Order

theorem Trade.between_redated (taker maker : Order) (price amount money : Decimal) (now : Instant) :
    (between taker maker price amount money now).redated trading =
      between (taker.redated placing) (maker.redated placing) price amount money (trading now) := by
  unfold between
  cases side : taker.side <;> simp [side, redated, Order.redated]

/-- Whether an order is shared out is told by the side of the cutoff it was created on. -/
theorem Listing.KeptBy.apportions {listing : Listing} (kept : listing.KeptBy placing)
    (order : Order) : listing.apportions (order.redated placing) = listing.apportions order := by
  unfold Listing.apportions
  cases known : listing.issuance with
  | none => rfl
  | some window =>
    have side : decide ((order.redated placing).createdAt < window.cutoff) =
        decide (order.createdAt < window.cutoff) :=
      decide_eq_decide.2 (kept window known order.createdAt)
    exact congrArg (decide (order.kind = .limit) && decide (order.side = window.side) && ·) side

namespace Pass
variable (pass : Pass) (listing : Listing) (now : Instant)

theorem start_redated (order : Order) :
    (start order).redated placing trading = start (order.redated placing) := by
  simp [start, redated]

theorem complete_redated (orders : List Order) :
    (pass.complete orders).redated placing trading =
      (pass.redated placing trading).complete (orders.map (Order.redated placing)) := by
  have completed : (pass.completed ++ orders).map (Order.redated placing) =
      pass.completed.map (Order.redated placing) ++ orders.map (Order.redated placing) :=
    Array.ext' (by simp)
  simp [complete, redated, completed]

theorem settle_redated (maker : Order) (price amount money : Decimal) :
    (pass.settle now maker price amount money).map
        (Prod.map (redated placing trading) (Order.redated placing)) =
      (pass.redated placing trading).settle (trading now) (maker.redated placing) price amount
        money := by
  refine map_bind_congr (Order.fill_redated ..) fun taker => ?_
  refine map_bind_congr (Order.fill_redated ..) fun maker => ?_
  have dated (deltas : DepthDeltas) :
      Prod.map (redated placing trading) (Order.redated placing) (Pass.mk taker (pass.trades.push
        (Trade.between taker maker price amount money now)) pass.completed deltas, maker) =
      (Pass.mk (taker.redated placing) ((pass.redated placing trading).trades.push
        (Trade.between (taker.redated placing) (maker.redated placing) price amount money
          (trading now)))
        (pass.redated placing trading).completed deltas, maker.redated placing) := by
    simp [redated, Trade.between_redated placing trading]
  exact map_ite_congr (map_bind_same fun deltas => congrArg Except.ok (dated deltas))
    (congrArg Except.ok (dated pass.deltas))

theorem meet_redated (maker : Order) :
    (pass.meet listing now maker).map (Prod.map (redated placing trading) (Order.redated placing)) =
      (pass.redated placing trading).meet listing (trading now) (maker.redated placing) := by
  refine map_ite_congr rfl (map_bind_same fun need => map_bind_same fun available => ?_)
  exact map_ite_congr rfl (map_bind_same fun product => settle_redated ..)

theorem sweepQueue_redated (queue : OrderQueue) :
    (pass.sweepQueue listing now queue).map
        (Prod.map (redated placing trading) (List.map (Order.redated placing))) =
      (pass.redated placing trading).sweepQueue listing (trading now)
        (queue.map (Order.redated placing)) := by
  induction queue generalizing pass with
  | nil => rfl
  | cons maker rest ih =>
    refine map_bind_congr (meet_redated placing trading pass listing now maker) ?_
    intro (met, maker)
    refine map_ite_congr ?_ (map_ite_congr rfl (map_bind_congr (ih met) fun _ => rfl))
    -- The maker is done, and the pass goes on with the next one only if the taker is not.
    have done := complete_redated placing trading met [maker]
    refine map_ite_congr ?_ ?_
    · exact congrArg (fun done => Except.ok (done, rest.map (Order.redated placing))) done
    · exact (ih (met.complete [maker])).trans (by rw [done]; rfl)

theorem sweepLadder_redated (limit : Option Decimal) (ladder : Ladder) :
    (pass.sweepLadder listing now limit ladder).map
        (Prod.map (redated placing trading) (List.map (PriceLevel.redated placing))) =
      (pass.redated placing trading).sweepLadder listing (trading now) limit
        (ladder.map (PriceLevel.redated placing)) := by
  induction ladder generalizing pass with
  | nil => rfl
  | cons level rest ih =>
    refine map_ite_congr ?_ rfl
    refine map_bind_congr (sweepQueue_redated placing trading pass listing now level.orders) ?_
    intro (swept, orders)
    cases orders with
    | nil => exact map_ite_congr rfl (map_ite_congr rfl (ih swept))
    | cons maker orders => rfl

theorem allot_redated (total price : Decimal) (maker : Order) :
    (pass.allot listing now total price maker).map
        (Prod.map (redated placing trading) (Order.redated placing)) =
      (pass.redated placing trading).allot listing (trading now) total price
        (maker.redated placing) := by
  refine map_bind_same fun share => map_bind_same fun available => map_bind_same fun need => ?_
  exact map_ite_congr rfl (map_bind_same fun product => settle_redated ..)

theorem allotQueue_redated (total price : Decimal) (queue : OrderQueue) :
    (pass.allotQueue listing now total price queue).map
        (Prod.map (redated placing trading) (List.map (Order.redated placing))) =
      (pass.redated placing trading).allotQueue listing (trading now) total price
        (queue.map (Order.redated placing)) := by
  induction queue generalizing pass with
  | nil => rfl
  | cons maker rest ih =>
    refine map_ite_congr rfl ?_
    refine map_bind_congr (allot_redated placing trading pass listing now total price maker) ?_
    intro (given, _)
    exact map_bind_congr (ih given) fun _ => rfl

end Pass

theorem OrderQueue.separate_redated (queue : OrderQueue) :
    OrderQueue.separate (queue.map (Order.redated placing)) =
      (queue.separate.1.map (Order.redated placing),
        queue.separate.2.map (Order.redated placing)) := by
  simp only [OrderQueue.separate, List.filter_map]
  rfl

theorem Ladder.keep_redated (level : PriceLevel) (orders : OrderQueue) (rest : Ladder) :
    (Ladder.keep level orders rest).map (PriceLevel.redated placing) =
      Ladder.keep (level.redated placing) (orders.map (Order.redated placing))
        (rest.map (PriceLevel.redated placing)) := by
  cases orders <;> rfl

theorem Ladder.divide_redated (side : Side) (limit : Decimal) (ladder : Ladder) :
    Ladder.divide side limit (ladder.map (PriceLevel.redated placing)) =
      ((ladder.divide side limit).1.map (PriceLevel.redated placing),
        (ladder.divide side limit).2.map (PriceLevel.redated placing)) := by
  simp only [Ladder.divide, List.filter_map]
  rfl

namespace Pass
variable (pass : Pass) (listing : Listing) (now : Instant)

theorem allotLadder_redated (total : Decimal) (ladder : Ladder) :
    (pass.allotLadder listing now total ladder).map
        (Prod.map (redated placing trading) (List.map (PriceLevel.redated placing))) =
      (pass.redated placing trading).allotLadder listing (trading now) total
        (ladder.map (PriceLevel.redated placing)) := by
  induction ladder generalizing pass with
  | nil => rfl
  | cons level rest ih =>
    have queue := allotQueue_redated placing trading pass listing now total level.price level.orders
    refine map_bind_congr queue ?_
    intro (given, orders)
    dsimp only [Prod.map]
    rw [OrderQueue.separate_redated]
    dsimp only
    rw [← complete_redated]
    refine map_ite_congr ?_ (map_bind_congr (ih _) fun (last, others) => ?_)
    · rw [map_return, Prod.map, Ladder.keep_redated]
    · rw [map_return, Prod.map, Ladder.keep_redated]
      rfl

theorem apportion_redated (ladder : Ladder) :
    (pass.apportion listing now ladder).map
        (Prod.map (redated placing trading) (List.map (PriceLevel.redated placing))) =
      (pass.redated placing trading).apportion listing (trading now)
        (ladder.map (PriceLevel.redated placing)) := by
  have divided := Ladder.divide_redated placing pass.taker.side pass.taker.price ladder
  -- The total that is shared out is a sum of amounts, and those have no dates.
  have amounts (levels : Ladder) :
      (levels.map (PriceLevel.redated placing)).mapM (fun level => level.orders.totalAmount) =
        levels.mapM fun level => level.orders.totalAmount := by
    rw [List.mapM_map]
    refine congrArg (fun total => levels.mapM total) (funext fun level => ?_)
    exact congrArg Decimal.sum (List.map_map ..)
  unfold apportion
  dsimp only [redated, Order.redated]
  rw [divided, amounts]
  refine map_bind_same fun sizes => map_bind_same fun total => map_ite_congr rfl ?_
  refine map_bind_congr (allotLadder_redated placing trading pass listing now total _) ?_
  intro (given, others)
  simp [map_return]

end Pass

namespace OrderBook
variable (book : OrderBook) (side : Side)

@[simp] theorem ladder_redated :
    (book.redated placing).ladder side = (book.ladder side).map (PriceLevel.redated placing) :=
  BySide.get_map ..

@[simp] theorem queue_redated :
    (book.redated placing).queue side = (book.queue side).map (Order.redated placing) :=
  BySide.get_map ..

theorem setLadder_redated (ladder : Ladder) :
    (book.setLadder side ladder).redated placing =
      (book.redated placing).setLadder side (ladder.map (PriceLevel.redated placing)) := by
  simp only [setLadder, redated, BySide.set_map]

theorem setQueue_redated (queue : OrderQueue) :
    (book.setQueue side queue).redated placing =
      (book.redated placing).setQueue side (queue.map (Order.redated placing)) := by
  simp only [setQueue, redated, BySide.set_map]

end OrderBook

namespace Market
variable {market : Market} (now : Instant) (pass : Pass)

theorem matchApportioned_redated (kept : market.listing.KeptBy placing) :
    (market.matchApportioned now pass).map
        (Prod.map (Pass.redated placing trading) (redated placing)) =
      (market.redated placing).matchApportioned (trading now) (pass.redated placing trading) := by
  have shares : (market.redated placing).listing.apportions (pass.redated placing trading).taker =
      market.listing.apportions pass.taker :=
    kept.apportions placing pass.taker
  unfold matchApportioned
  rw [shares]
  refine map_ite_congr ?_ rfl
  have shared := Pass.apportion_redated placing trading pass market.listing now
    (market.book.ladder pass.taker.side.opposite)
  rw [← OrderBook.ladder_redated] at shared
  refine map_bind_congr shared fun (pass, ladder) => ?_
  simp only [map_return, Prod.map, redated, OrderBook.setLadder_redated]
  rfl

theorem matchLadder_redated (limit : Option Decimal) :
    (market.matchLadder now limit pass).map
        (Prod.map (Pass.redated placing trading) (redated placing)) =
      (market.redated placing).matchLadder (trading now) limit (pass.redated placing trading) := by
  refine map_ite_congr rfl ?_
  have swept := Pass.sweepLadder_redated placing trading pass market.listing now limit
    (market.book.ladder pass.taker.side.opposite)
  rw [← OrderBook.ladder_redated] at swept
  refine map_bind_congr swept fun (pass, ladder) => ?_
  simp only [map_return, Prod.map, redated, OrderBook.setLadder_redated]
  rfl

theorem matchQueue_redated :
    (market.matchQueue now pass).map (Prod.map (Pass.redated placing trading) (redated placing)) =
      (market.redated placing).matchQueue (trading now) (pass.redated placing trading) := by
  refine map_ite_congr rfl ?_
  have swept := Pass.sweepQueue_redated placing trading pass market.listing now
    (market.book.queue pass.taker.side.opposite)
  rw [← OrderBook.queue_redated] at swept
  refine map_bind_congr swept fun (pass, queue) => ?_
  simp only [map_return, Prod.map, redated, OrderBook.setQueue_redated]
  rfl

theorem matchOrder_redated (kept : market.listing.KeptBy placing) (order : Order) :
    (market.matchOrder now order).map (Prod.map (Pass.redated placing trading) (redated placing)) =
      (market.redated placing).matchOrder (trading now) (order.redated placing) := by
  unfold matchOrder
  rw [Order.kind_redated, ← Pass.start_redated]
  cases order.kind with
  | market => exact matchLadder_redated placing trading now (.start order) none
  | limit =>
    refine map_bind_congr (matchApportioned_redated placing trading now (.start order) kept) ?_
    intro (pass, market)
    refine map_bind_congr (matchLadder_redated placing trading now pass (some order.price)) ?_
    exact fun (pass, market) => matchQueue_redated placing trading now pass

end Market

theorem Ladder.append_redated (side : Side) (order : Order) (ladder : Ladder) :
    (Ladder.append side order ladder).map (PriceLevel.redated placing) =
      Ladder.append side (order.redated placing) (ladder.map (PriceLevel.redated placing)) := by
  induction ladder with
  | nil => rfl
  | cons level rest ih =>
    refine (apply_ite (List.map (PriceLevel.redated placing)) ..).trans ?_
    refine ite_congr rfl (fun _ => ?_) fun _ => ?_
    · simp [PriceLevel.append, PriceLevel.redated]
    · exact (apply_ite (List.map (PriceLevel.redated placing)) ..).trans
        (ite_congr rfl (fun _ => rfl) fun _ => congrArg (level.redated placing :: ·) ih)

theorem OrderQueue.extract?_redated (number : String) (queue : OrderQueue) :
    (OrderQueue.extract? number queue).map
        (Prod.map (Order.redated placing) (List.map (Order.redated placing))) =
      OrderQueue.extract? number (queue.map (Order.redated placing)) := by
  induction queue with
  | nil => rfl
  | cons order rest ih =>
    refine (apply_ite (Option.map _) ..).trans (ite_congr rfl (fun _ => rfl) fun _ => ?_)
    rw [← ih, Option.map_map, Option.map_map]
    rfl

theorem Ladder.extract?_redated (price : Decimal) (number : String) (ladder : Ladder) :
    (Ladder.extract? price number ladder).map
        (Prod.map (Order.redated placing) (List.map (PriceLevel.redated placing))) =
      Ladder.extract? price number (ladder.map (PriceLevel.redated placing)) := by
  induction ladder with
  | nil => rfl
  | cons level rest ih =>
    refine (apply_ite (Option.map _) ..).trans (ite_congr rfl (fun _ => ?_) fun _ => ?_)
    · have found := OrderQueue.extract?_redated placing number level.orders
      dsimp only [PriceLevel.redated]
      rw [← found, Option.map_map, Option.map_map]
      refine congrArg (fun image => Option.map image _) (funext fun (order, orders) => ?_)
      exact congrArg (Prod.mk _) (Ladder.keep_redated placing level orders rest)
    · rw [← ih, Option.map_map, Option.map_map]
      rfl

namespace OrderBook
variable (book : OrderBook) (side : Side)

theorem addLimit_redated (order : Order) :
    (book.addLimit order).redated placing =
      (book.redated placing).addLimit (order.redated placing) := by
  simp only [addLimit, setLadder_redated, Ladder.append_redated, ladder_redated]
  rfl

theorem addMarket_redated (order : Order) :
    (book.addMarket order).redated placing =
      (book.redated placing).addMarket (order.redated placing) := by
  simp only [addMarket, setQueue_redated, List.map_append, queue_redated]
  rfl

theorem removeLimit?_redated (price : Decimal) (number : String) :
    (book.removeLimit? side price number).map (Prod.map (Order.redated placing) (redated placing)) =
      (book.redated placing).removeLimit? side price number := by
  simp only [removeLimit?, ladder_redated, ← Ladder.extract?_redated, Option.map_map]
  refine congrArg (fun image => Option.map image _) (funext fun (order, ladder) => ?_)
  exact congrArg (Prod.mk _) (setLadder_redated placing book side ladder)

theorem removeMarket?_redated (number : String) :
    (book.removeMarket? side number).map (Prod.map (Order.redated placing) (redated placing)) =
      (book.redated placing).removeMarket? side number := by
  simp only [removeMarket?, queue_redated, ← OrderQueue.extract?_redated, Option.map_map]
  refine congrArg (fun image => Option.map image _) (funext fun (order, queue) => ?_)
  exact congrArg (Prod.mk _) (setQueue_redated placing book side queue)

end OrderBook

namespace Market
variable {market : Market} (now : Instant) (pass : Pass)

theorem applyDeltas_redated (side : Side) (deltas : DepthDeltas) :
    (market.applyDeltas side deltas).map (Prod.map id (redated placing)) =
      (market.redated placing).applyDeltas side deltas :=
  map_bind_same fun _ => rfl

theorem rest_redated (order : Order) :
    (market.rest order).map (Prod.map id (redated placing)) =
      (market.redated placing).rest (order.redated placing) := by
  unfold rest
  rw [Order.kind_redated]
  cases order.kind with
  | limit =>
    refine map_bind_same fun (changed, view) => ?_
    simp only [map_return, Prod.map, redated, OrderBook.addLimit_redated]
    rfl
  | market =>
    simp only [Except.map, Prod.map, redated, OrderBook.addMarket_redated]
    rfl

theorem finish_redated :
    (market.finish pass).map (Prod.map (Report.redated placing trading) (redated placing)) =
      (market.redated placing).finish (pass.redated placing trading) := by
  refine map_bind_congr (applyDeltas_redated ..) fun (opposing, market) => ?_
  refine map_ite_congr ?_ (map_bind_congr (rest_redated placing pass.taker) fun (own, market) => ?_)
  · simp [map_return, Report.redated, Pass.redated]
  · simp [map_return, Report.redated, Pass.redated]

/-- A trade on other clocks, that keep to the listing, is the same trade. -/
theorem trade_redated (kept : market.listing.KeptBy placing) (order : Order) :
    (market.trade now order).map (Prod.map (Outcome.redated placing trading) (redated placing)) =
      (market.redated placing).trade (trading now) (order.redated placing) := by
  refine map_bind_same fun refusal => ?_
  cases refusal with
  | some reason => rfl
  | none =>
    refine map_bind_congr (matchOrder_redated placing trading now kept order) ?_
    intro (pass, matched)
    exact map_bind_congr (finish_redated placing trading pass) fun _ => rfl

theorem cancel_redated (request : CancelRequest) :
    (market.cancel request).map (Prod.map (Option.map (Order.redated placing)) (redated placing)) =
      (market.redated placing).cancel request := by
  refine map_ite_congr rfl ?_
  cases request.kind with
  | market =>
    have found := OrderBook.removeMarket?_redated placing market.book request.side
      request.number
    dsimp only [redated]
    rw [← found]
    cases market.book.removeMarket? request.side request.number with
    | none => rfl
    | some removed =>
      obtain ⟨order, book⟩ := removed
      simp only [Option.map_some, Prod.map, Except.map, Order.cancel_redated]
      rfl
  | limit =>
    have found := OrderBook.removeLimit?_redated placing market.book request.side
      request.price request.number
    dsimp only [redated]
    rw [← found]
    cases market.book.removeLimit? request.side request.price request.number with
    | none => rfl
    | some removed =>
      obtain ⟨order, book⟩ := removed
      refine map_bind_same fun remaining => map_bind_same fun (changed, view) => ?_
      simp only [map_return, Prod.map, Option.map_some, Order.cancel_redated]
      rfl

end Market

theorem inBatches_map {α β : Type} (image : α → β) (size : Nat) (items : List α) :
    inBatches size (items.map image) = (inBatches size items).map (List.map image) := by
  induction items using inBatches.induct size with
  | case1 => simp [inBatches]
  | case2 first rest ih =>
      rw [List.map_cons, inBatches, inBatches, ← List.map_drop, ih]
      simp

section Events
variable (market : Market)

theorem Market.reportEvents_redated (batch : Nat) (report : Report) :
    (market.reportEvents batch report).map (Event.redated placing trading) =
      (market.redated placing).reportEvents batch (report.redated placing trading) := by
  have done : (if report.completed.isEmpty then [] else
        [Event.completed market.symbol report.completed]).map (Event.redated placing trading) =
      if (report.completed.map (Order.redated placing)).isEmpty then [] else
        [Event.completed market.symbol (report.completed.map (Order.redated placing))] := by
    cases report.completed <;> rfl
  simp only [Market.reportEvents, List.map_append, done, Report.redated, inBatches_map,
    List.map_map]
  rfl

theorem Market.cancellationEvents_redated (order : Order) :
    (market.cancellationEvents order).map (Event.redated placing trading) =
      (market.redated placing).cancellationEvents (order.redated placing) := by
  simp only [Market.cancellationEvents, List.map_append, Order.kind_redated]
  cases order.kind <;> rfl

end Events

section Undated

def Trade.undated (trade : Trade) : Trade := { trade with createdAt := default }

def Report.undated (report : Report) : Report :=
  { report with trades := report.trades.map Trade.undated }

def Outcome.undated : Outcome → Outcome
  | .refused reason => .refused reason
  | .processed report => .processed report.undated

def Event.undated : Event → Event
  | .trades symbol made => .trades symbol (made.map Trade.undated)
  | event => event

theorem Order.redated_id : Order.redated id = id := rfl

theorem PriceLevel.redated_id : PriceLevel.redated id = id := by
  funext level
  simp [redated, Order.redated_id]

theorem Market.redated_id : Market.redated id = id := by
  funext market
  simp [redated, OrderBook.redated, BySide.map, PriceLevel.redated_id, Order.redated_id]

theorem Report.redated_default (report : Report) :
    report.redated id (fun _ => default) = report.undated := by
  simp only [redated, Order.redated_id, List.map_id, Option.map_id]
  rfl

theorem Outcome.redated_default : Outcome.redated id (fun _ => default) = Outcome.undated := by
  funext outcome
  cases outcome with
  | refused reason => rfl
  | processed report => exact congrArg Outcome.processed report.redated_default

theorem Event.redated_default : Event.redated id (fun _ => default) = Event.undated := by
  funext event
  cases event with
  | trades symbol made => rfl
  | completed symbol orders | cancelled symbol orders => simp [redated, undated, Order.redated_id]
  | depth snapshot => rfl

variable (market : Market)

/-- A trade at any time is the trade at another, but for the dates of what it made. -/
theorem Market.trade_undated (now : Instant) (order : Order) :
    (market.trade now order).map (Prod.map Outcome.undated id) = market.trade default order := by
  have kept : market.listing.KeptBy id := fun _ _ _ => Iff.rfl
  have traded := trade_redated id (fun _ => default) now kept order
  rwa [Outcome.redated_default, redated_id, Order.redated_id] at traded

theorem Market.reportEvents_undated (batch : Nat) (report : Report) :
    (market.reportEvents batch report).map Event.undated =
      market.reportEvents batch report.undated := by
  have told := reportEvents_redated id (fun _ => default) market batch report
  rwa [Event.redated_default, redated_id, report.redated_default] at told

end Undated

section Desks
variable (clock : Instant → Instant)

def Sink.redated : Sink → Sink
  | .log => .log
  | .channel room delivered => .channel room (delivered.map (Event.redated clock clock))

theorem Sink.redated_comp (later : Instant → Instant) (sink : Sink) :
    (sink.redated clock).redated later = sink.redated (later ∘ clock) := by
  cases sink <;> simp [redated, Event.redated_comp]

theorem Sink.publish_redated (sink : Sink) (event : Event) :
    Prod.map id (Sink.redated clock) (sink.publish event) =
      (sink.redated clock).publish (event.redated clock clock) := by
  match sink with
  | .log => rfl
  | .channel none delivered => simp [redated, publish]
  | .channel (some 0) delivered => rfl
  | .channel (some (room + 1)) delivered => simp [redated, publish]

theorem Sink.publishAll_redated (sink : Sink) (events : List Event) :
    Prod.map id (Sink.redated clock) (sink.publishAll events) =
      (sink.redated clock).publishAll (events.map (Event.redated clock clock)) := by
  induction events generalizing sink with
  | nil => rfl
  | cons event rest ih =>
    rw [List.map_cons, publishAll, publishAll, ← publish_redated]
    cases sink.publish event with
    | mk taken sink => cases taken with
      | true => exact ih sink
      | false => rfl

namespace Desk
variable (desk : Desk)

def redated (desk : Desk) : Desk :=
  { desk with sink := desk.sink.redated clock }

theorem publishCounted_redated (symbol : String) (events : List Event) :
    (desk.publishCounted symbol events).redated clock =
      (desk.redated clock).publishCounted symbol (events.map (Event.redated clock clock)) := by
  have published := Sink.publishAll_redated clock desk.sink events
  dsimp only [publishCounted, publish, redated]
  rw [← published]
  cases desk.sink.publishAll events with
  | mk taken sink => cases taken <;> rfl

theorem record_redated (market : Market) (outcome : Outcome) :
    (desk.record market outcome).redated clock =
      (desk.redated clock).record (market.redated clock) (outcome.redated clock clock) := by
  cases outcome with
  | refused reason => rfl
  | processed report =>
    have count : (report.redated clock clock).trades.length = report.trades.length :=
      List.length_map _
    refine (publishCounted_redated ..).trans ?_
    rw [Market.reportEvents_redated]
    dsimp only [record, Outcome.redated]
    rw [count]
    rfl

theorem place_redated (now : Instant) {market : Market} (kept : market.listing.KeptBy clock)
    (order : Order) :
    (desk.place now market order).map
        (Prod.map (Outcome.redated clock clock) (Prod.map (Market.redated clock) (redated clock))) =
      (desk.redated clock).place (clock now) (market.redated clock) (order.redated clock) := by
  refine map_bind_congr (Market.trade_redated clock clock now kept order) ?_
  intro (outcome, market)
  simp only [map_return, Prod.map, record_redated]

theorem cancel_redated (market : Market) (request : CancelRequest) :
    (desk.cancel market request).map
        (Prod.map (Option.map (Order.redated clock))
          (Prod.map (Market.redated clock) (redated clock))) =
      (desk.redated clock).cancel (market.redated clock) request := by
  refine map_bind_congr (Market.cancel_redated clock request) fun (order, market) => ?_
  cases order with
  | none => rfl
  | some order =>
    simp only [map_return, Prod.map, publishCounted_redated, Market.cancellationEvents_redated]
    rfl

end Desk

end Desks

end SpotExchange
