import SpotExchange.Proofs.ExactQuantity

/-!
The book is never crossed: an order takes its place only after it has taken all
it could from the other side. This rests on exact quantities, where a pass ends
only when the taker is done or nobody within its limit is left.
-/

namespace SpotExchange

namespace OrderBook

/-- Every bid is below every ask, and no bid stands while a market sell waits. -/
structure Uncrossed (book : OrderBook) : Prop where
  prices : ∀ bid ∈ book.ladder .buy, ∀ ask ∈ book.ladder .sell, bid.price < ask.price
  waiting : book.queue .sell ≠ [] → book.ladder .buy = []

theorem Uncrossed.empty : OrderBook.empty.Uncrossed where
  prices := fun _ member => nomatch member
  waiting := fun _ => rfl

theorem Uncrossed.remainder {book later : OrderBook} (uncrossed : book.Uncrossed)
    (ladders : ∀ side, Ladder.Remainder (book.ladder side) (later.ladder side))
    (queues : ∀ side, OrderQueue.Remainder (book.queue side) (later.queue side)) :
    later.Uncrossed where
  prices := by
    intro bid bids ask asks
    obtain ⟨bid', known, price, -⟩ := (ladders .buy).exists_level bids
    obtain ⟨ask', known', price', -⟩ := (ladders .sell).exists_level asks
    rw [price, price']
    exact uncrossed.prices bid' known ask' known'
  waiting := by
    intro some
    have before : book.queue .sell ≠ [] := by
      intro none
      have left := queues .sell
      rw [none] at left
      exact some (List.map_eq_nil_iff.mp (List.sublist_nil.mp left))
    have left := ladders .buy
    rw [uncrossed.waiting before] at left
    cases later_ladder : later.ladder .buy with
    | nil => rfl
    | cons level rest =>
        rw [later_ladder] at left
        cases left

structure Exhausts (book : OrderBook) (order : Order) : Prop where
  limit : order.kind = .limit → ∀ level ∈ book.ladder order.side.opposite,
    ¬ order.side.crosses order.price level.price = true
  bid : order.kind = .limit → order.side = .buy → book.queue .sell = []
  ask : order.kind = .market → order.side = .sell → book.ladder .buy = []

theorem Exhausts.of_terms {book : OrderBook} {order later : Order} (exhausts : book.Exhausts order)
    (same : order.terms = later.terms) : book.Exhausts later where
  limit := by
    rw [← Order.kind_of_terms same, ← Order.side_of_terms same, ← Order.price_of_terms same]
    exact exhausts.limit
  bid := by
    rw [← Order.kind_of_terms same, ← Order.side_of_terms same]
    exact exhausts.bid
  ask := by
    rw [← Order.kind_of_terms same, ← Order.side_of_terms same]
    exact exhausts.ask

theorem Uncrossed.place {book : OrderBook} {order : Order} (uncrossed : book.Uncrossed)
    (exhausts : book.Exhausts order) : (book.place order).Uncrossed := by
  unfold OrderBook.place
  cases kind : order.kind with
  | limit =>
      have beyond := exhausts.limit kind
      cases side : order.side with
      | buy =>
          -- a bid stands only below all asks that are left, and when no market sell is
          have none := exhausts.bid kind side
          simp only [side, Side.opposite, Side.crosses_iff_value, not_le] at beyond
          rw [addLimit, side]
          refine ⟨?_, fun some => absurd none some⟩
          intro bid bids ask asks
          rw [ladder_setLadder] at bids
          rcases Ladder.price_of_mem_append bids with price | ⟨old, known, price⟩
          · rw [price, Decimal.lt_iff_value]
            exact beyond ask asks
          · rw [price]
            exact uncrossed.prices old known ask asks
      | sell =>
          -- an ask stands only above all bids that are left
          simp only [side, Side.opposite, Side.crosses_iff_value, not_le] at beyond
          rw [addLimit, side]
          refine ⟨?_, uncrossed.waiting⟩
          intro bid bids ask asks
          rw [ladder_setLadder] at asks
          rcases Ladder.price_of_mem_append asks with price | ⟨old, known, price⟩
          · rw [price, Decimal.lt_iff_value]
            exact beyond bid bids
          · rw [price]
            exact uncrossed.prices bid bids old known
  | market =>
      refine ⟨uncrossed.prices, ?_⟩
      cases side : order.side with
      | buy =>
          rw [addMarket, side]
          exact uncrossed.waiting
      | sell =>
          rw [addMarket, side]
          exact fun _ => exhausts.ask kind side

end OrderBook

namespace Market

section Exhaustion
variable {places : Nat} {now : Instant} {side : Side} {market after : Market} {pass later : Pass}

theorem matchLadder_exhausts {limit : Option Decimal} (fewer : market.listing.baseScale ≤ places)
    (taken : pass.taker.Exact places) (own : pass.taker.side = side)
    (formed : market.book.WellFormed market.symbol)
    (given : ∀ maker ∈ market.book.ordersOf side.opposite, maker.Counted places)
    (matched : market.matchLadder now limit pass = .ok (later, after)) :
    later.taker.isCompleted = true ∨
      ∀ level ∈ after.book.ladder side.opposite, Pass.reaches pass.taker limit level = false := by
  subst own
  unfold matchLadder at matched
  split_ifs at matched with done
  · cases matched
    exact Or.inl done
  · obtain ⟨⟨swept, ladder⟩, walk, same⟩ := (bind_eq_ok _ _ _).mp matched
    cases same
    rw [OrderBook.ladder_setLadder]
    exact Pass.sweepLadder_exhausts fewer taken (formed.ladders _)
      (fun maker member => given maker (List.mem_append_left _ member))
      (Bool.eq_false_iff.mpr done) walk

theorem matchQueue_exhausts (fewer : market.listing.baseScale ≤ places)
    (taken : pass.taker.Exact places) (own : pass.taker.side = .buy)
    (limit : pass.taker.kind = .limit) (formed : market.book.WellFormed market.symbol)
    (given : ∀ maker ∈ market.book.ordersOf .sell, maker.Counted places)
    (priced : 0 < pass.taker.price)
    (matched : market.matchQueue now pass = .ok (later, after)) :
    later.taker.isCompleted = true ∨ after.book.queue .sell = [] := by
  unfold matchQueue at matched
  simp only [own, Side.opposite] at matched
  split_ifs at matched with done
  · cases matched
    exact Or.inl done
  · obtain ⟨⟨swept, queue⟩, walk, same⟩ := (bind_eq_ok _ _ _).mp matched
    cases same
    rw [OrderBook.queue_setQueue]
    refine Pass.sweepQueue_exhausts fewer taken (Bool.eq_false_iff.mpr done) ?_ ?_ walk
    · intro maker member
      exact Pass.meets_of_waiting (formed.queues _)
        (fun other inside => given other (List.mem_append_right _ inside)) limit priced member
    · intro maker member
      have sells := (formed.queues .sell maker member).2.1
      simp [Order.isMarketBuy, sells]

theorem matchLimit_exhausts {order : Order} (fewer : market.listing.baseScale ≤ places)
    (formed : market.book.WellFormed market.symbol) (accepts : market.Accepts order)
    (taken : order.Counted places) (limit : order.kind = .limit)
    (given : ∀ maker ∈ market.book.ordersOf order.side.opposite, maker.Counted places)
    (matched : market.matchOrder now order = .ok (later, after)) :
    later.taker.isCompleted = true ∨
      (∀ level ∈ after.book.ladder order.side.opposite,
        ¬ order.side.crosses order.price level.price = true) ∧
      (order.side = .buy → after.book.queue .sell = []) := by
  obtain ⟨first, shared, second, swept, -, walked, queued, sharing, sweeping, queueing⟩ :=
    matchOrder_limit formed limit matched
  have exact := taken.of_exact (by simp [Order.isMarketBuy, limit])
  obtain ⟨first_exact, first_given⟩ := exact_of_stage sharing fewer exact given
  have first_fewer : shared.listing.baseScale ≤ places := sharing.listing_eq ▸ fewer
  obtain ⟨second_exact, second_given⟩ :=
    exact_of_stage sweeping first_fewer first_exact first_given
  have first_side : first.taker.side = order.side := Order.side_of_terms sharing.taker_terms
  have second_terms : second.taker.terms = order.terms :=
    sweeping.taker_terms.trans sharing.taker_terms
  by_cases done : later.taker.isCompleted = true
  · exact Or.inl done
  refine Or.inr ⟨?_, ?_⟩
  · rcases matchLadder_exhausts first_fewer first_exact first_side sharing.formed_after first_given
      walked with early | unreached
    · rw [matchQueue_of_done early queued] at done
      exact absurd early done
    · intro level member
      -- the queue stage keeps the prices of the ladder
      obtain ⟨earlier, known, price, -⟩ := queueing.ladder_left.exists_level member
      rw [price, ← first_side, Bool.not_eq_true]
      exact unreached earlier known
  · intro side
    rw [side] at second_given
    have exhausted := matchQueue_exhausts (sweeping.listing_eq ▸ first_fewer) second_exact
      ((Order.side_of_terms second_terms).trans side)
      ((Order.kind_of_terms second_terms).trans limit) sweeping.formed_after second_given
      (Order.price_of_terms second_terms ▸ accepts.price_pos limit) queued
    exact exhausted.resolve_left done

/-- Matching goes on until the order is done or has taken all it must have taken
to take its place. -/
theorem matchOrder_exhausts {order : Order} (fewer : market.listing.baseScale ≤ places)
    (formed : market.book.WellFormed market.symbol) (accepts : market.Accepts order)
    (taken : order.Counted places)
    (given : ∀ maker ∈ market.book.ordersOf order.side.opposite, maker.Counted places)
    (matched : market.matchOrder now order = .ok (later, after)) :
    later.taker.isCompleted = true ∨ after.book.Exhausts later.taker := by
  have terms := (matchOrder_stage formed matched).taker_terms
  suffices later.taker.isCompleted = true ∨ after.book.Exhausts order from
    this.imp_right fun exhausts => exhausts.of_terms terms.symm
  cases kind : order.kind with
  | limit =>
      apply (matchLimit_exhausts fewer formed accepts taken kind given matched).imp_right
      rintro ⟨beyond, emptied⟩
      exact ⟨fun _ => beyond, fun _ => emptied, by simp [kind]⟩
  | market =>
      cases side : order.side with
      | buy => exact Or.inr ⟨by simp [kind], by simp [kind], by simp [side]⟩
      | sell =>
          have exact := taken.of_exact (by simp [Order.isMarketBuy, side])
          rw [side] at given
          simp only [matchOrder, kind] at matched
          apply (matchLadder_exhausts fewer exact side formed given matched).imp_right
          intro unreached
          refine ⟨by simp [kind], by simp [kind], fun _ _ => ?_⟩
          -- without a limit every level is reached
          apply List.eq_nil_iff_forall_not_mem.mpr
          intro level member
          have passed := unreached level member
          cases passed

end Exhaustion

theorem uncrossed_of_trade {places : Nat} {now : Instant} {market later : Market} {order : Order}
    {report : Report} (fewer : market.listing.baseScale ≤ places)
    (formed : market.book.WellFormed market.symbol)
    (given : ∀ maker ∈ market.book.orders, maker.Counted places) (fits : order.Fits places)
    (uncrossed : market.book.Uncrossed)
    (traded : market.trade now order = .ok (.processed report, later)) :
    later.book.Uncrossed := by
  rcases trade_cases traded with ⟨_, refused, -, -⟩ | ⟨_, pass, after, -, accepts, matched, ended⟩
  · cases refused
  have stage := matchOrder_stage formed matched
  have between := uncrossed.remainder stage.ladders stage.queues
  obtain ⟨-, -, ⟨-, -, -, same⟩ | ⟨live, -, -, same⟩⟩ := finish_cases ended
  · rw [same]
    exact between
  · have exhausts := matchOrder_exhausts fewer formed accepts (fits.counted accepts.rests.live)
      (fun maker member => given maker (OrderBook.mem_orders.mpr ⟨_, member⟩)) matched
    rw [live] at exhausts
    rw [same]
    exact between.place (exhausts.resolve_left Bool.false_ne_true)

theorem uncrossed_perform {places : Nat} {market later : Market} {action : Action}
    {answer : Answer} (fewer : market.listing.baseScale ≤ places)
    (formed : market.book.WellFormed market.symbol)
    (given : ∀ maker ∈ market.book.orders, maker.Counted places)
    (fits : ∀ order ∈ Action.orders [action], order.Fits places)
    (uncrossed : market.book.Uncrossed)
    (performed : market.perform action = .ok (answer, later)) : later.book.Uncrossed := by
  rcases perform_cases formed performed with ⟨now, order, report, pass, left, rfl, -, processes⟩ |
    ⟨_, _, -, -, removes, -⟩ | ⟨-, frame⟩
  · exact uncrossed_of_trade fewer formed given (fits order (List.mem_singleton_self _)) uncrossed
      processes.traded
  · exact uncrossed.remainder removes.ladders removes.queues
  · rw [frame]
    exact uncrossed

end Market

/-- After every run of measured orders the highest bid is below the lowest ask,
and while a market sell waits there is no bid. -/
theorem best_bid_below_best_ask {listing : Listing} {places : Nat} {actions : List Action}
    {history : History} {market : Market}
    (run : Market.replay listing actions = .ok (history, market))
    (measured : Measured listing places (Action.orders actions)) :
    (∀ bid ask, market.book.bestBid? = some bid → market.book.bestAsk? = some ask → bid < ask) ∧
      (∀ bid ∈ (market.book.ladder .buy).orders, ∀ ask ∈ (market.book.ladder .sell).orders,
        bid.price < ask.price) ∧
      (market.book.queue .sell ≠ [] → market.book.ladder .buy = []) := by
  have uncrossed := (fitting_induction (motive := fun market => market.book.Uncrossed)
    measured.base_le .empty
    (fun same formed given fits uncrossed performed => Market.uncrossed_perform
      (same ▸ measured.base_le) formed given fits uncrossed performed)
    run fun order member => measured.fits member).2
  obtain ⟨-, formed⟩ := Market.wellFormed_of_replay run
  refine ⟨?_, ?_, uncrossed.waiting⟩
  · intro bid ask best lowest
    obtain ⟨bids, first, rfl⟩ := Option.map_eq_some_iff.mp best
    obtain ⟨asks, last, rfl⟩ := Option.map_eq_some_iff.mp lowest
    exact uncrossed.prices bids (List.mem_of_mem_head? first) asks (List.mem_of_mem_head? last)
  · intro bid bids ask asks
    obtain ⟨bid_level, known, inside⟩ := Ladder.mem_orders.mp bids
    obtain ⟨ask_level, known', inside'⟩ := Ladder.mem_orders.mp asks
    have near := ((formed.ladders .buy).placed bid_level known bid inside).2.2
    have near' := ((formed.ladders .sell).placed ask_level known' ask inside').2.2
    rw [Decimal.equiv_iff_value] at near near'
    rw [Decimal.lt_iff_value, near, near', ← Decimal.lt_iff_value]
    exact uncrossed.prices bid_level known ask_level known'

theorem sample_book_uncrossed : ∃ history market,
    Market.replay (.named "coin") History.sampleActions = .ok (history, market) ∧
      ∃ bid ask, market.book.bestBid? = some bid ∧ market.book.bestAsk? = some ask ∧ bid < ask := by
  have run : ∃ history market bid ask,
      Market.replay (.named "coin") History.sampleActions = .ok (history, market) ∧
        market.book.bestBid? = some bid ∧ market.book.bestAsk? = some ask :=
    ⟨_, _, _, _, rfl, rfl, rfl⟩
  have measured : Measured (.named "coin") 8 (Action.orders History.sampleActions) := by
    refine ⟨by decide, by decide, by decide +kernel, by decide +kernel, ?_⟩
    simp only [History.sampleActions, Action.orders, List.filterMap_cons, Action.order?,
      List.filterMap_nil]
    simp [Order.limit, Decimal.value_ofParts, tenTo, Decimal.bound]
    norm_num
  obtain ⟨history, market, bid, ask, ran, best, lowest⟩ := run
  have below := (best_bid_below_best_ask ran measured).1 bid ask best lowest
  exact ⟨history, market, ran, bid, ask, best, lowest, below⟩

end SpotExchange
