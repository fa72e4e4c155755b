import SpotExchange.Proofs.GreedyWalk

/-!
Price-time priority. The orders of a ladder stand by price and then by arrival,
and the trades of an incoming order are those of a greedy fill from the orders it
may deal with, in that order.
-/

namespace SpotExchange

namespace OrderBook

/-- Orders of a level, and of a queue, stand in the order of their arrival. -/
structure InArrivalOrder (arrivals : List String) (book : OrderBook) : Prop where
  levels : ∀ side, ∀ level ∈ book.ladder side, (level.orders.map Order.number).Sublist arrivals
  queues : ∀ side, ((book.queue side).map Order.number).Sublist arrivals

theorem InArrivalOrder.empty (arrivals : List String) :
    OrderBook.empty.InArrivalOrder arrivals where
  levels := by
    intro side level member
    cases side <;> cases member
  queues := by
    intro side
    cases side <;> exact List.nil_sublist _

theorem InArrivalOrder.more {arrivals : List String} {book : OrderBook}
    (arrived : book.InArrivalOrder arrivals) (later : List String) :
    book.InArrivalOrder (arrivals ++ later) where
  levels := fun side level member =>
    (arrived.levels side level member).trans (List.sublist_append_left _ _)
  queues := fun side => (arrived.queues side).trans (List.sublist_append_left _ _)

theorem InArrivalOrder.remainder {arrivals : List String} {book later : OrderBook}
    (arrived : book.InArrivalOrder arrivals)
    (ladders : ∀ side, Ladder.Remainder (book.ladder side) (later.ladder side))
    (queues : ∀ side, OrderQueue.Remainder (book.queue side) (later.queue side)) :
    later.InArrivalOrder arrivals where
  levels := by
    intro side level member
    obtain ⟨earlier, known, -, kept⟩ := (ladders side).exists_level member
    exact kept.numbers.trans (arrived.levels side earlier known)
  queues := fun side => (queues side).numbers.trans (arrived.queues side)

theorem InArrivalOrder.place {arrivals : List String} {book : OrderBook}
    (arrived : book.InArrivalOrder arrivals) (order : Order) :
    (book.place order).InArrivalOrder (arrivals ++ [order.number]) := by
  have behind {numbers : List String} (before : numbers.Sublist arrivals) :
      (numbers ++ [order.number]).Sublist (arrivals ++ [order.number]) :=
    before.append (List.Sublist.refl _)
  have others := arrived.more [order.number]
  unfold OrderBook.place
  cases order.kind with
  | limit =>
      refine ⟨forall_side order.side ?_ ?_, others.queues⟩
      · rw [addLimit, ladder_setLadder]
        intro level member
        rcases Ladder.mem_append member with old | ⟨old, known, -, rfl⟩ | rfl
        · exact others.levels order.side level old
        · rw [PriceLevel.append, List.map_append]
          exact behind (arrived.levels order.side old known)
        · exact behind (List.nil_sublist _)
      · rw [addLimit, ladder_setLadder_opposite]
        exact others.levels order.side.opposite
  | market =>
      refine ⟨others.levels, forall_side order.side ?_ ?_⟩
      · rw [addMarket, queue_setQueue, List.map_append]
        exact behind (arrived.queues order.side)
      · rw [addMarket, queue_setQueue_opposite]
        exact others.queues order.side.opposite

/-- Whom an incoming order may deal with, one after the other: the limit orders of
the other side, within its limit if it has one, and then, for a limit order, the
market orders of the other side. -/
def candidates (book : OrderBook) (order : Order) : List Order :=
  match order.kind with
  | .limit => ((book.ladder order.side.opposite).orders.filter fun maker =>
      order.side.crosses order.price maker.price) ++ book.queue order.side.opposite
  | .market => (book.ladder order.side.opposite).orders

end OrderBook

/-- Whether a resting order is served before another one of its side: it has the
better price, or the same price and came earlier. -/
def StandsBefore (arrivals : List String) (side : Side) (first second : Order) : Prop :=
  side.better first.price second.price = true ∨
    first.price ≈ second.price ∧ [first.number, second.number].Sublist arrivals

theorem arrivals_pairwise {arrivals : List String} {queue : List Order}
    (arrived : (queue.map Order.number).Sublist arrivals) :
    queue.Pairwise fun first second => [first.number, second.number].Sublist arrivals := by
  rw [List.pairwise_iff_forall_sublist]
  intro first second both
  exact (both.map Order.number).trans arrived

/-- A ladder holds its orders by price and then by arrival. -/
theorem orders_pairwise {arrivals : List String} {symbol : String} {side : Side}
    {ladder : Ladder} (formed : ladder.WellFormed symbol side)
    (arrived : ∀ level ∈ ladder, (level.orders.map Order.number).Sublist arrivals) :
    ladder.orders.Pairwise (StandsBefore arrivals side) := by
  induction ladder with
  | nil => exact .nil
  | cons level rest ih =>
      rw [Ladder.orders_cons, List.pairwise_append]
      have near {order : Order} (member : order ∈ level.orders) : order.price ≈ level.price :=
        (formed.placed level List.mem_cons_self order member).2.2
      refine ⟨?_, ih formed.tail fun other member => arrived other (List.mem_cons_of_mem _ member),
        ?_⟩
      · -- within a level arrival decides
        have queue := arrivals_pairwise (arrived level List.mem_cons_self)
        apply queue.imp_of_mem
        intro first second member member' came
        refine Or.inr ⟨?_, came⟩
        have left := near member
        have right := near member'
        rw [Decimal.equiv_iff_value] at left right ⊢
        exact left.trans right.symm
      · -- between levels the price does
        intro first member second far
        obtain ⟨other, known, inside⟩ := Ladder.mem_orders.mp far
        have left := near member
        have right := (formed.placed other (List.mem_cons_of_mem _ known) second inside).2.2
        have worse := (List.pairwise_cons.mp formed.sorted).1 other known
        rw [Decimal.equiv_iff_value] at left right
        rw [Side.better_iff_value, ← left, ← right, ← Side.better_iff_value] at worse
        exact Or.inl worse

theorem arrival_order_of_replay {listing : Listing} {actions : List Action} {history : History}
    {market : Market} (run : Market.replay listing actions = .ok (history, market)) :
    market.book.InArrivalOrder ((History.accepted history).map Order.number) := by
  refine Market.replay_induction (motive := fun history market =>
    market.book.InArrivalOrder ((History.accepted history).map Order.number)) (.empty _) ?_ run
  intro history before later action answer formed arrived performed
  rw [History.accepted_append, List.map_append]
  rcases Market.perform_cases formed performed with
    ⟨now, order, report, pass, left, rfl, rfl, processes⟩ | ⟨_, _, -, -, removes, -⟩ |
    ⟨-, frame⟩
  · -- others only leave; the order comes last, behind all that came before it
    obtain ⟨between, ladders, queues, same | same⟩ := processes.placed
    · rw [same]
      exact (arrived.remainder ladders queues).more _
    · rw [same]
      have number := Order.number_of_terms (Pass.dealings_terms processes.dealings).1
      have placed := (arrived.remainder ladders queues).place pass.taker
      rw [number] at placed
      exact placed
  · exact (arrived.remainder removes.ladders removes.queues).more _
  · rw [frame]
    exact arrived.more _

namespace Market

theorem orders_filter_reaches {taker : Order} {limit : Decimal} {symbol : String} {side : Side}
    {ladder : Ladder} (formed : ladder.WellFormed symbol side) :
    Ladder.orders (ladder.filter fun level => Pass.reaches taker (some limit) level) =
      ladder.orders.filter fun maker => taker.side.crosses limit maker.price := by
  induction ladder with
  | nil => rfl
  | cons level rest ih =>
      have own {maker : Order} (member : maker ∈ level.orders) :
          taker.side.crosses limit maker.price = taker.side.crosses limit level.price :=
        Side.crosses_congr (formed.placed level List.mem_cons_self maker member).2.2
      rw [Ladder.orders_cons, List.filter_append, ← ih formed.tail]
      by_cases within : Pass.reaches taker (some limit) level = true
      · have all : (level.orders.filter fun maker => taker.side.crosses limit maker.price) =
            level.orders := by
          apply List.filter_eq_self.mpr
          intro maker member
          rw [own member]
          exact within
        rw [List.filter_cons_of_pos within, Ladder.orders_cons, all]
      · have none : (level.orders.filter fun maker => taker.side.crosses limit maker.price) =
            [] := by
          apply List.filter_eq_nil_iff.mpr
          intro maker member
          rw [own member]
          exact within
        rw [List.filter_cons_of_neg within, none, List.nil_append]

section Matching
variable {places : Nat} {now : Instant} {side : Side} {market after : Market} {pass later : Pass}

theorem matchLadder_fills {limit : Option Decimal} (fewer : market.listing.baseScale ≤ places)
    (taken : pass.taker.Exact places) (own : pass.taker.side = side)
    (live : pass.taker.isCompleted = false) (formed : market.book.WellFormed market.symbol)
    (given : ∀ maker ∈ market.book.ordersOf side.opposite, maker.Counted places)
    (matched : market.matchLadder now limit pass = .ok (later, after)) :
    Pass.Fills market.listing now places pass (Ladder.orders
      ((market.book.ladder side.opposite).filter fun level =>
        Pass.reaches pass.taker limit level)) later ∧
      after.book.queue side.opposite = market.book.queue side.opposite := by
  subst own
  simp only [matchLadder, live, Bool.false_eq_true, ↓reduceIte, bind_eq_ok, return_eq_ok] at matched
  obtain ⟨⟨swept, ladder⟩, walk, same⟩ := matched
  cases same
  exact ⟨Pass.sweepLadder_fills fewer taken (formed.ladders _)
    (fun maker member => given maker (List.mem_append_left _ member)) live walk, rfl⟩

theorem matchQueue_fills (fewer : market.listing.baseScale ≤ places)
    (taken : pass.taker.Exact places) (own : pass.taker.side = side)
    (live : pass.taker.isCompleted = false) (formed : market.book.WellFormed market.symbol)
    (given : ∀ maker ∈ market.book.ordersOf side.opposite, maker.Counted places)
    (limit : pass.taker.kind = .limit) (priced : 0 < pass.taker.price)
    (matched : market.matchQueue now pass = .ok (later, after)) :
    Pass.Fills market.listing now places pass (market.book.queue side.opposite) later := by
  subst own
  simp only [matchQueue, live, Bool.false_eq_true, ↓reduceIte, bind_eq_ok, return_eq_ok] at matched
  obtain ⟨⟨swept, queue⟩, walk, same⟩ := matched
  cases same
  refine Pass.sweepQueue_fills fewer taken live ?_ walk
  intro maker member
  exact Pass.meets_of_waiting (formed.queues _)
    (fun other inside => given other (List.mem_append_right _ inside)) limit priced member

theorem matchOrder_fills {order : Order} (fewer : market.listing.baseScale ≤ places)
    (formed : market.book.WellFormed market.symbol) (accepts : market.Accepts order)
    (taken : order.Exact places)
    (given : ∀ maker ∈ market.book.ordersOf order.side.opposite, maker.Counted places)
    (alone : order.kind = .limit → market.listing.apportions order = false)
    (matched : market.matchOrder now order = .ok (later, after)) :
    Pass.Fills market.listing now places (.start order) (market.book.candidates order) later := by
  unfold OrderBook.candidates
  have live : (Pass.start order).taker.isCompleted = false := accepts.rests.live
  cases kind : order.kind with
  | market =>
      simp only [matchOrder, kind] at matched
      obtain ⟨fills, -⟩ := matchLadder_fills fewer taken rfl live formed given matched
      have all (ladder : Ladder) :
          (ladder.filter fun level => Pass.reaches (Pass.start order).taker none level) = ladder :=
        List.filter_eq_self.mpr fun _ _ => rfl
      rw [all] at fills
      exact fills
  | limit =>
      obtain ⟨first, shared, second, swept, apportioned, walked, queued, -, sweeping, -⟩ :=
        matchOrder_limit formed kind matched
      -- an order that is not shared out goes on as it came
      have none : market.matchApportioned now (.start order) = .ok (.start order, market) :=
        if_neg (Bool.eq_false_iff.mp (alone kind))
      cases none.symm.trans apportioned
      obtain ⟨fills, standing⟩ := matchLadder_fills fewer taken rfl live formed given walked
      rw [orders_filter_reaches (formed.ladders _)] at fills
      cases done : second.taker.isCompleted with
      | true =>
          rw [matchQueue_of_done done queued]
          exact fills.stop done _
      | false =>
          obtain ⟨-, others⟩ := exact_of_stage sweeping fewer taken given
          have waiting := matchQueue_fills (sweeping.listing_eq ▸ fewer) fills.exact
            (Order.side_of_terms fills.terms) done sweeping.formed_after others
            ((Order.kind_of_terms fills.terms).trans kind)
            (Order.price_of_terms fills.terms ▸ accepts.price_pos kind) queued
          rw [sweeping.listing_eq] at waiting
          exact standing ▸ fills.append waiting

end Matching

end Market

/-- Price-time priority. Unless it is shared out, a limit order or a market sell
trades with the orders of the other side by price and arrival, and then, if it has
a limit, with market orders by arrival: with each of them the smaller of what is
still wanted and what can be given, if that is something, and in no other trade. -/
theorem trades_by_price_and_arrival {listing : Listing} {places : Nat} {actions : List Action}
    {history : History} {market later : Market} {now : Instant} {order : Order} {report : Report}
    (run : Market.replay listing actions = .ok (history, market))
    (measured : Measured listing places (Action.orders actions ++ [order]))
    (traded : market.trade now order = .ok (.processed report, later))
    (direct : order.kind = .limit ∧ listing.apportions order = false ∨
      order.kind = .market ∧ order.side = .sell) :
    (market.book.ladder order.side.opposite).orders.Pairwise
        (StandsBefore ((History.accepted history).map Order.number) order.side.opposite) ∧
      (market.book.queue order.side.opposite).Pairwise (fun first second =>
        [first.number, second.number].Sublist ((History.accepted history).map Order.number)) ∧
      ∃ remaining, order.remaining = .ok remaining ∧
        List.Forall₂ (Pass.Executes listing now order) report.trades
          (Pass.greedy (Pass.capacity listing order) remaining.value
            (market.book.candidates order)) := by
  obtain ⟨same, formed⟩ := Market.wellFormed_of_replay run
  have arrived := arrival_order_of_replay run
  refine ⟨orders_pairwise (formed.ladders _) (arrived.levels _),
    arrivals_pairwise (arrived.queues _), ?_⟩
  rcases Market.trade_cases traded with
    ⟨_, refused, -, -⟩ | ⟨_, pass, after, told, accepts, matched, ended⟩
  · cases refused
  cases told
  have fits := measured.fits (List.mem_append_right _ (List.mem_singleton_self order))
  have quantity : order.isMarketBuy = false := by
    rcases direct with ⟨limit, -⟩ | ⟨-, sell⟩
    · simp [Order.isMarketBuy, limit]
    · simp [Order.isMarketBuy, sell]
  have exact := (fits.counted accepts.rests.live).of_exact quantity
  have counted := counted_of_replay measured.base_le run
    fun other member => measured.fits (List.mem_append_left _ member)
  have alone : order.kind = .limit → market.listing.apportions order = false := by
    intro limit
    rcases direct with ⟨-, apart⟩ | ⟨kind, -⟩
    · rwa [same]
    · rw [limit] at kind
      cases kind
  have fills := Market.matchOrder_fills (same ▸ measured.base_le) formed accepts exact
    (fun maker member => counted maker (OrderBook.mem_orders.mpr ⟨_, member⟩)) alone matched
  obtain ⟨trades, recorded, executed⟩ := fills.trades
  obtain ⟨remaining, subtracted, value, -⟩ := exact.remaining
  obtain ⟨reported, -, -⟩ := Market.finish_cases ended
  refine ⟨remaining, subtracted, ?_⟩
  rw [value, reported, recorded, ← same]
  exact executed

theorem sample_trades_in_turn : ∃ history market report later,
    Market.replay (.named "coin") (History.sampleActions.take 3) = .ok (history, market) ∧
      market.trade default History.sampleBid = .ok (.processed report, later) ∧
      report.trades.map (fun trade => (trade.sellNumber, trade.amount.coefficient)) =
        [("ask", 2), ("next", 4)] ∧
      List.Forall₂ (Pass.Executes (.named "coin") default History.sampleBid) report.trades
        (Pass.greedy (Pass.capacity (.named "coin") History.sampleBid) 6
          (market.book.candidates History.sampleBid)) := by
  have run : ∃ history market report later,
      Market.replay (.named "coin") (History.sampleActions.take 3) = .ok (history, market) ∧
        market.trade default History.sampleBid = .ok (.processed report, later) ∧
        report.trades.map (fun trade => (trade.sellNumber, trade.amount.coefficient)) =
          [("ask", 2), ("next", 4)] :=
    ⟨_, _, _, _, rfl, rfl, by decide +kernel⟩
  have measured : Measured (.named "coin") 8
      (Action.orders (History.sampleActions.take 3) ++ [History.sampleBid]) := by
    refine ⟨by decide, by decide, by decide +kernel, by decide +kernel, ?_⟩
    simp only [History.sampleActions, List.take_succ_cons, List.take_zero, Action.orders,
      List.filterMap_cons, Action.order?, List.filterMap_nil]
    simp [History.sampleBid, Order.limit, Decimal.value_ofParts, tenTo, Decimal.bound]
    norm_num
  obtain ⟨history, market, report, later, ran, traded, numbers⟩ := run
  have fills := (trades_by_price_and_arrival ran measured traded (Or.inl ⟨rfl, rfl⟩)).2.2
  obtain ⟨remaining, subtracted, executed⟩ := fills
  have six : remaining.value = 6 := by
    have whole : History.sampleBid.remaining = .ok History.sampleBid.amount := rfl
    cases whole.symm.trans subtracted
    simp [History.sampleBid, Order.limit, Decimal.value_ofParts, tenTo]
  rw [six] at executed
  exact ⟨history, market, report, later, ran, traded, numbers, executed⟩

end SpotExchange
