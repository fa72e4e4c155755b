import SpotExchange.Proofs.OrderAccounts

/-!
Where orders go, and what trades make of them. An accepted order rests in the
book until it is reported as done or cancelled, and from then on nothing changes
it; at every moment it has filled what its trades add up to.
-/

namespace SpotExchange.History

/-- How often a number stands in the book, among the orders that were reported as
done, and among the cancelled ones. -/
def places (history : History) (market : Market) (number : String) : Nat × Nat × Nat :=
  ((market.book.orders.map Order.number).count number,
    ((completed history).map Order.number).count number,
    ((cancelled history).map Order.number).count number)

section Run
variable {listing : Listing} {actions : List Action} {history : History} {market : Market}

theorem count_places (accounted : Accounted history market) (number : String) :
    (places history market number).1 + (places history market number).2.1 +
      (places history market number).2.2 =
        ((accepted history).map Order.number).count number := by
  have counted := congrArg (Multiset.count number) accounted.numbers
  simpa [places, add_assoc] using counted

theorem places_of_accepted (accounted : Accounted history market)
    (distinct : ((accepted history).map Order.number).Nodup) {order : Order}
    (known : order ∈ accepted history) :
    places history market order.number ∈ [(1, 0, 0), (0, 1, 0), (0, 0, 1)] := by
  have total := count_places accounted order.number
  rw [List.count_eq_one_of_mem distinct (List.mem_map_of_mem known)] at total
  generalize places history market order.number = counts at total
  obtain ⟨resting, done, gone⟩ := counts
  simp only [List.mem_cons, Prod.mk.injEq, List.not_mem_nil, or_false] at total ⊢
  omega

theorem places_of_unknown (accounted : Accounted history market) {number : String}
    (absent : number ∉ (accepted history).map Order.number) :
    places history market number = (0, 0, 0) := by
  have total := count_places accounted number
  rw [List.count_eq_zero_of_not_mem absent] at total
  generalize places history market number = counts at total ⊢
  obtain ⟨resting, done, gone⟩ := counts
  simp only [Prod.mk.injEq] at total ⊢
  omega

theorem record_after_close {earlier later : History}
    (accounted : Accounted (earlier ++ later) market)
    (distinct : ((accepted (earlier ++ later)).map Order.number).Nodup) {record other : Order}
    (closed : record ∈ completed earlier ++ cancelled earlier)
    (member : other ∈ records (earlier ++ later) market) (same : other.number = record.number) :
    other = record := by
  have known : record ∈ records (earlier ++ later) market := by
    simp only [records, completed_append, cancelled_append, List.mem_append] at closed ⊢
    tauto
  exact List.inj_on_of_nodup_map (records_nodup accounted distinct) member known same

/-- No order is lost or duplicated. An accepted order either rests in the book,
or was once reported as done, or was once cancelled; a refused order is nowhere.
After it was reported or cancelled it is in no trade and stays as it is. -/
theorem accepted_order_in_one_place
    (run : Market.replay listing actions = .ok (history, market))
    (distinct : ((Action.orders actions).map Order.number).Nodup) :
    (∀ order ∈ accepted history,
      places history market order.number ∈ [(1, 0, 0), (0, 1, 0), (0, 0, 1)] ∧
        ∀ record ∈ records history market, record.number = order.number →
          record.terms = order.terms) ∧
    (∀ record ∈ completed history, record.status = .filled) ∧
    (∀ record ∈ cancelled history, record.status = .cancelled) ∧
    (∀ order ∈ refused history, places history market order.number = (0, 0, 0)) ∧
    ∀ earlier later, history = earlier ++ later →
      ∀ record ∈ completed earlier ++ cancelled earlier,
        (∀ trade ∈ trades later, ¬ trade.names record.number = true) ∧
          ∀ other ∈ records history market, other.number = record.number → other = record := by
  rw [← Market.submitted_of_replay run] at distinct
  have accounted := accounted_of_replay run distinct
  have split := (Market.submitted_perm_of_replay run).map Order.number
  rw [List.map_append] at split
  obtain ⟨once, -, apart⟩ := List.nodup_append.mp (split.nodup_iff.mp distinct)
  refine ⟨?_, ?_, ?_, ?_, ?_⟩
  · intro order known
    refine ⟨places_of_accepted accounted once known, ?_⟩
    intro record member same
    obtain ⟨last, followed, rfl | rfl⟩ := record_of_number accounted once known member same
    · exact Order.terms_afterTrades followed
    · exact (Order.terms_cancel last).trans (Order.terms_afterTrades followed)
  · intro record member
    exact accounted.status_completed member
  · intro record member
    obtain ⟨last, rfl, live, -⟩ := accounted.withdrawn record member
    exact Order.status_cancel live
  · intro order dropped
    apply places_of_unknown accounted
    intro known
    exact apart _ known _ (List.mem_map_of_mem dropped) rfl
  · rintro earlier later rfl record closed
    exact ⟨no_trade_after_close run distinct closed,
      fun other member same => record_after_close accounted once closed member same⟩

theorem sample_orders_in_one_place : ∃ history market,
    Market.replay (.named "coin") sampleActions = .ok (history, market) ∧
      (accepted history).map Order.number = ["ask", "bid", "next", "low"] ∧
      (market.book.orders.map Order.number, (completed history).map Order.number,
        (cancelled history).map Order.number) = (["low", "next"], ["bid"], ["ask"]) ∧
      ∀ order ∈ accepted history,
        places history market order.number ∈ [(1, 0, 0), (0, 1, 0), (0, 0, 1)] := by
  have run : ∃ result, Market.replay (.named "coin") sampleActions = .ok result ∧
      (accepted result.1).map Order.number = ["ask", "bid", "next", "low"] ∧
      (result.2.book.orders.map Order.number, (completed result.1).map Order.number,
        (cancelled result.1).map Order.number) = (["low", "next"], ["bid"], ["ask"]) :=
    ⟨_, rfl, by decide +kernel, by decide +kernel⟩
  obtain ⟨⟨history, market⟩, ran, numbers, found⟩ := run
  have standing := (accepted_order_in_one_place ran (by decide +kernel)).1
  exact ⟨history, market, ran, numbers, found, fun order known => (standing order known).1⟩

theorem sides_of_trade {earlier later : History} {now : Instant} {order : Order}
    {report : Report} {trade : Trade}
    (run : Market.replay listing actions =
      .ok (earlier ++ (.trade now order, .outcome (.processed report)) :: later, market))
    (distinct : ((submitted (earlier ++ (.trade now order, .outcome (.processed report)) ::
      later)).map Order.number).Nodup) (member : trade ∈ report.trades) :
    ∃ origin ∈ accepted earlier, origin.number ≠ order.number ∧
      origin.side = order.side.opposite ∧
      trade = Trade.between order origin trade.price trade.amount trade.money now := by
  obtain ⟨_, _, first, middle, after, pass, left, same, ran, processes⟩ := exists_pass run
  cases same
  obtain ⟨earlier_distinct, accepted_distinct, fresh⟩ := distinct_before distinct
  have before := accounted_of_replay ran earlier_distinct
  obtain ⟨maker, inside, between⟩ :=
    (before.dealt processes fresh accepted_distinct).between trade member
  obtain ⟨origin, known, -, followed⟩ :=
    before.resting maker (OrderBook.mem_orders.mpr ⟨_, inside⟩)
  have terms := Order.terms_afterTrades followed
  refine ⟨origin, known, ?_, ?_, between.trans (Trade.between_of_terms _ _ _ _ rfl terms)⟩
  · intro same
    exact fresh (same ▸ List.mem_map_of_mem known)
  · rw [← Order.side_of_terms terms]
    exact ((Market.wellFormed_of_replay ran).2.rests inside).1

theorem open_for_trade (accounted : Accounted history market)
    (distinct : ((accepted history).map Order.number).Nodup) {earlier later : List Trade}
    {trade : Trade} (cut : trades history = earlier ++ trade :: later) {order : Order}
    (known : order ∈ accepted history) (named : trade.names order.number = true) :
    ∃ before after, order.afterTrades (Trade.naming order.number earlier) = .ok (some before) ∧
      before.status.isTerminal = false ∧ before.fill trade.amount trade.money = .ok after := by
  obtain ⟨record, member, same⟩ := exists_record accounted known
  obtain ⟨last, followed, -⟩ := record_of_number accounted distinct known member same
  rw [cut, Trade.naming_append] at followed
  obtain ⟨before, started, rest⟩ := Order.afterTrades_append.mp followed
  have first : Trade.naming order.number (trade :: later) =
      trade :: Trade.naming order.number later := List.filter_cons_of_pos named
  rw [first] at rest
  obtain ⟨live, after, filled, -⟩ := Order.of_afterTrades_cons rest
  exact ⟨before, after, started, live, filled⟩

/-- Conservation. What an order has filled, wherever it is, is what it came with
plus its trades, added in their order; every trade is between the incoming order
and an accepted one of the other side; and neither of them was closed for it. -/
theorem filled_is_sum_of_trades
    (run : Market.replay listing actions = .ok (history, market))
    (distinct : ((Action.orders actions).map Order.number).Nodup) :
    (∀ order ∈ accepted history, ∀ record ∈ records history market,
      record.number = order.number →
        ((Trade.naming order.number (trades history)).map Trade.amount).foldlM Decimal.add
            order.filledAmount = .ok record.filledAmount ∧
          ((Trade.naming order.number (trades history)).map Trade.money).foldlM Decimal.add
            order.filledMoney = .ok record.filledMoney) ∧
    (∀ earlier now order report later,
      history = earlier ++ (.trade now order, .outcome (.processed report)) :: later →
        ∀ trade ∈ report.trades, trade.takerSide = order.side ∧
          ∃ buyer seller, buyer.side = .buy ∧ seller.side = .sell ∧
            trade.buyNumber = buyer.number ∧ trade.sellNumber = seller.number ∧
            buyer.number ≠ seller.number ∧
            (buyer = order ∧ seller ∈ accepted earlier ∨
              seller = order ∧ buyer ∈ accepted earlier)) ∧
    ∀ earlier trade later, trades history = earlier ++ trade :: later →
      ∀ order ∈ accepted history, trade.names order.number = true →
        ∃ before after, order.afterTrades (Trade.naming order.number earlier) = .ok (some before) ∧
          before.status.isTerminal = false ∧
          before.fill trade.amount trade.money = .ok after := by
  rw [← Market.submitted_of_replay run] at distinct
  have accounted := accounted_of_replay run distinct
  have once := distinct.sublist ((accepted_sublist history).map Order.number)
  refine ⟨?_, ?_, ?_⟩
  · intro order known record member same
    obtain ⟨last, followed, rfl | rfl⟩ := record_of_number accounted once known member same
    · exact Order.filled_afterTrades followed
    · rw [Order.filledAmount_cancel, Order.filledMoney_cancel]
      exact Order.filled_afterTrades followed
  · rintro earlier now order report later rfl trade member
    obtain ⟨origin, known, other, side, between⟩ := sides_of_trade run distinct member
    cases own : order.side with
    | buy =>
        rw [own] at side
        simp only [Trade.between, own] at between
        rw [between]
        exact ⟨rfl, order, origin, own, side, rfl, rfl, other.symm, Or.inl ⟨rfl, known⟩⟩
    | sell =>
        rw [own] at side
        simp only [Trade.between, own] at between
        rw [between]
        exact ⟨rfl, origin, order, side, own, rfl, rfl, other, Or.inr ⟨rfl, known⟩⟩
  · intro earlier trade later cut order known named
    exact open_for_trade accounted once cut known named

theorem sample_fills_are_trades : ∃ history market,
    Market.replay (.named "coin") sampleActions = .ok (history, market) ∧
      (trades history).map (fun trade => (trade.buyNumber, trade.sellNumber)) = [("bid", "ask")] ∧
      ∀ order ∈ accepted history, ∀ record ∈ records history market,
        record.number = order.number →
          ((Trade.naming order.number (trades history)).map Trade.amount).foldlM Decimal.add
            order.filledAmount = .ok record.filledAmount := by
  have run : ∃ result, Market.replay (.named "coin") sampleActions = .ok result ∧
      (trades result.1).map (fun trade => (trade.buyNumber, trade.sellNumber)) =
        [("bid", "ask")] := ⟨_, rfl, by decide +kernel⟩
  obtain ⟨⟨history, market⟩, ran, numbers⟩ := run
  have sums := (filled_is_sum_of_trades ran (by decide +kernel)).1
  refine ⟨history, market, ran, numbers, ?_⟩
  exact fun order known record member same => (sums order known record member same).1

end Run

end SpotExchange.History
