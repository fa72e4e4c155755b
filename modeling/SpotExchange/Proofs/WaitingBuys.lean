import SpotExchange.Proofs.MarketBuyTurn

/-!
What a waiting market buy could still take. A pass goes on until the money of a market
buy buys nothing more at the best ask, as long as every trade is charged its whole value.
A trade that is charged less leaves money that was spent already, up to one unit of it,
and a market buy can come to wait although this buys something.
-/

namespace SpotExchange

namespace Order

/-- An order further on: its terms are the same, and a market buy has not spent less. -/
structure Advances (earlier later : Order) : Prop where
  terms : later.terms = earlier.terms
  spends : earlier.isMarketBuy = true → earlier.filledMoney.value ≤ later.filledMoney.value

/-- What a market buy has left is less than a unit of a quantity and a unit of money
cost at a price. It is less than the unit of a quantity costs, unless one of its trades
was charged less than its value. -/
structure Drained (listing : Listing) (dealt : List Trade) (price : Decimal) (order : Order) :
    Prop where
  little : order.amount.value - order.filledMoney.value <
    price.value / tenTo listing.baseScale + 1 / tenTo listing.quoteScale
  excused : order.Short listing.baseScale price ∨
    ∃ trade ∈ dealt, trade.buyNumber = order.number ∧ trade.isCut = true

section Draining
variable {listing : Listing} {dealt more : List Trade} {price higher need : Decimal}
  {order middle last : Order}

theorem Advances.refl (order : Order) : order.Advances order where
  terms := rfl
  spends := fun _ => le_rfl

theorem Advances.trans (first : order.Advances middle) (second : middle.Advances last) :
    order.Advances last where
  terms := second.terms.trans first.terms
  spends := by
    intro buys
    exact (first.spends buys).trans (second.spends ((marketBuy_of_terms first.terms).trans buys))

theorem Drained.of_short (short : order.Short listing.baseScale price) (dealt : List Trade) :
    order.Drained listing dealt price where
  little := by
    have unit := one_div_pos.mpr (Decimal.tenTo_pos_rat listing.quoteScale)
    have less := (lt_div_iff₀ (Decimal.tenTo_pos_rat listing.baseScale)).mpr short
    linarith
  excused := Or.inl short

theorem Drained.later (drained : order.Drained listing dealt price)
    (buys : order.isMarketBuy = true) (onward : order.Advances last) (among : dealt ⊆ more)
    (dearer : price.value ≤ higher.value) : last.Drained listing more higher := by
  have scale := Decimal.tenTo_pos_rat listing.baseScale
  have less : last.amount.value - last.filledMoney.value ≤
      order.amount.value - order.filledMoney.value := by
    rw [amount_of_terms onward.terms]
    linarith [onward.spends buys]
  constructor
  · have unit := div_le_div_of_nonneg_right dearer scale.le
    linarith [drained.little]
  · rcases drained.excused with short | ⟨trade, member, named, cut⟩
    · exact Or.inl (((mul_le_mul_of_nonneg_right less scale.le).trans_lt short).trans_le dearer)
    · exact Or.inr ⟨trade, among member, named.trans (number_of_terms onward.terms).symm, cut⟩

theorem Sound.advances {taker maker : Order} {amount money : Decimal} (sound : order.Sound)
    (live : order.isCompleted = false) (base : listing.baseScale ≤ 8)
    (quote : listing.quoteScale ≤ 8) (terms : Pass.Deal listing taker maker price amount money)
    (grid : amount.OnGrid 8) (priced : price.Moderate) (offer : ∃ need,
      order.availableAt price listing.baseScale = .ok need ∧ amount ≤ need)
    (filled : order.fill amount money = .ok last) : order.Advances last where
  terms := terms_fill filled
  spends := by
    intro buys
    have funded := sound.funded buys
    obtain ⟨charges, within⟩ := funded.charges buys base quote terms grid priced offer
    obtain ⟨-, paid⟩ := funded.fill (not_terminal_of_open live) charges within filled
    rw [paid]
    linarith [charges.nonneg]

theorem Funded.exists_available {places : Nat} (funded : order.Funded)
    (buys : order.isMarketBuy = true) (priced : price.Moderate) (positive : 0 < price.value) :
    ∃ need, order.availableAt price places = .ok need := by
  obtain ⟨left, subtracted, -, moderate⟩ := funded.exists_left
  have free : ¬ price ≤ 0 := by
    rwa [Decimal.not_nonpos_iff]
  simp only [availableAt, buys, ↓reduceIte, if_neg free, bind_eq_ok]
  by_cases spent : left ≤ 0
  · exact ⟨0, left, subtracted, by rw [if_pos spent]; rfl⟩
  · obtain ⟨quotient, divided⟩ := moderate.exists_div priced positive
    refine ⟨quotient.truncate places, left, subtracted, ?_⟩
    rw [if_neg spent, divided]
    rfl

end Draining

end Order

namespace Pass

/-- When a market buy and a seller deal in all they can and the seller has something
left, the market buy is drained. -/
theorem Bargain.drained_of_deal {listing : Listing} {price need available amount money : Decimal}
    {buyer seller taker maker taken given : Order} {dealt : List Trade}
    (bargain : Bargain listing price buyer seller)
    (needed : buyer.availableAt price listing.baseScale = .ok need)
    (offered : seller.availableAt price listing.baseScale = .ok available)
    (terms : Deal listing taker maker price amount money) (grid : amount.OnGrid 8)
    (all : amount.value = min need.value available.value)
    (took : buyer.fill amount money = .ok taken) (gave : seller.fill amount money = .ok given)
    (stays : given.isCompleted = false) (recorded : ∃ trade ∈ dealt,
      trade.buyNumber = buyer.number ∧ trade.price = price ∧ trade.amount = amount ∧
        trade.money = money) : taken.Drained listing dealt price := by
  obtain ⟨charges, whole, rest⟩ :=
    bargain.rest_of_deal needed offered terms grid all took gave stays
  constructor
  · have base_scale := Decimal.tenTo_pos_rat listing.baseScale
    have quote_scale := Decimal.tenTo_pos_rat listing.quoteScale
    have least := (bargain.affords needed).least
    have quantity : buyer.amount.value - buyer.filledMoney.value <
        need.value * price.value + price.value / tenTo listing.baseScale := by
      rw [← mul_lt_mul_iff_of_pos_right base_scale, add_mul, div_mul_cancel₀ _ base_scale.ne']
      linarith
    have value : amount.value * price.value < money.value + 1 / tenTo listing.quoteScale := by
      rw [← mul_lt_mul_iff_of_pos_right quote_scale, add_mul, div_mul_cancel₀ _ quote_scale.ne']
      exact charges.least
    rw [rest]
    rw [whole] at value
    linarith
  · obtain ⟨trade, member, named, priced, amounts, charged⟩ := recorded
    by_cases cut : trade.isCut = true
    · exact Or.inr ⟨trade, member, named.trans
        (Order.number_of_terms (Order.terms_fill took)).symm, cut⟩
    · apply Or.inl
      apply bargain.short_of_deal needed offered terms grid all took gave stays
      simpa [Trade.isCut, Trade.value, priced, amounts, charged] using cut

section Walks
variable {listing : Listing} {now : Instant} {pass met later : Pass} {maker after : Order}
  {price : Decimal} {makers kept : List Order} {left : Multiset Order}

theorem Bounded.advances (bounded : Bounded listing pass.taker makers)
    (steps : Dealings listing now pass makers later left) :
    pass.taker.Advances later.taker ∧ ∀ record ∈ left, ∃ maker ∈ makers, maker.Advances record := by
  induction steps with
  | refl => exact ⟨.refl _, fun record member => ⟨record, member, .refl record⟩⟩
  | report _ _ ih => exact ih
  | @deal middle last others maker filled price amount money steps terms settled ih =>
      obtain ⟨taken, given⟩ := ih
      obtain ⟨taker, records, -⟩ := dealings_keep
        (Order.sound_keeps bounded.base bounded.quote) steps bounded.taker bounded.makers
      have offered := records maker (Multiset.mem_cons_self _ _)
      obtain ⟨gave, took, -, -, -⟩ := settle_eq_ok settled
      have grid := terms.grid bounded.base taker.counted offered.counted
      have priced := terms.moderate taker.priced offered.priced
      constructor
      · exact taken.trans (taker.advances terms.taker_open bounded.base bounded.quote terms grid
          priced terms.within_taker took)
      · intro record member
        rcases Multiset.mem_cons.mp member with rfl | other
        · obtain ⟨origin, known, before⟩ := given maker (Multiset.mem_cons_self _ _)
          exact ⟨origin, known, before.trans (offered.advances terms.maker_open bounded.base
            bounded.quote terms grid priced terms.within_maker gave)⟩
        · exact given record (Multiset.mem_cons_of_mem other)

theorem meet_drains_taker (buys : pass.taker.isMarketBuy = true)
    (live : pass.taker.isCompleted = false) (positive : 0 < price) (asks : Asks price maker)
    (bounded : Bounded listing pass.taker [maker])
    (meeting : pass.meet listing now maker = .ok (met, after))
    (stays : after.isCompleted = false) :
    met.taker.Drained listing met.trades.toList price := by
  have same := (Decimal.equiv_iff_value _ _).mp asks.near
  have bargain := asks.bargain buys live positive bounded
  suffices met.taker.Drained listing met.trades.toList maker.price ∧
      met.taker.isMarketBuy = true from
    this.1.later this.2 (.refl _) (List.Subset.refl _) same.le
  have cases := meet_cases live asks.live (Or.inr asks.limit) meeting
  rw [dealPrice_of_limit asks.limit] at cases
  rcases cases with ⟨rfl, rfl, vain⟩ | ⟨need, available, money, needed, offered, terms, settled⟩
  · rcases vain with free | ⟨need, available, needed, offered, nothing⟩
    · rw [Decimal.nonpos_iff] at free
      exact absurd bargain.positive (not_lt.mpr free)
    · rw [Decimal.le_iff_value, Decimal.value_min, Decimal.value_zero] at nothing
      exact ⟨.of_short (bargain.short_of_vain needed offered nothing) _, buys⟩
  · obtain ⟨gave, took, -, -, -⟩ := settle_eq_ok settled
    have grid := terms.grid bounded.base bounded.taker.counted
      (bounded.makers maker List.mem_cons_self).counted
    refine ⟨?_, (Order.marketBuy_of_terms (Order.terms_fill took)).trans buys⟩
    apply bargain.drained_of_deal needed offered terms grid (Decimal.value_min _ _) took gave stays
    refine ⟨_, mem_trades_of_settle settled, ?_, rfl, rfl, rfl⟩
    rw [Trade.between, (pass.taker.marketBuy_iff.mp buys).2]

theorem meet_drains_maker (limit : pass.taker.kind = .limit) (sells : pass.taker.side = .sell)
    (live : pass.taker.isCompleted = false) (positive : 0 < pass.taker.price)
    (buys : maker.isMarketBuy = true) (waiting : maker.isCompleted = false)
    (bounded : Bounded listing pass.taker [maker])
    (meeting : pass.meet listing now maker = .ok (met, after))
    (stays : met.taker.isCompleted = false) :
    after.Drained listing met.trades.toList pass.taker.price := by
  have sound := bounded.makers maker List.mem_cons_self
  have bargain : Bargain listing pass.taker.price maker pass.taker :=
    { base := bounded.base
      quote := bounded.quote
      buys := buys
      sound := sound
      exact := bounded.taker.counted.of_exact (by simp [Order.isMarketBuy, limit])
      buyer_open := waiting
      seller_open := live
      priced := bounded.taker.priced limit
      positive := by rwa [Decimal.pos_iff] at positive }
  have cases := meet_cases live waiting (Or.inl limit) meeting
  rw [dealPrice, (maker.marketBuy_iff.mp buys).1] at cases
  rcases cases with ⟨rfl, rfl, vain⟩ | ⟨available, need, money, offered, needed, terms, settled⟩
  · rcases vain with free | ⟨available, need, offered, needed, nothing⟩
    · rw [Decimal.nonpos_iff] at free
      exact absurd bargain.positive (not_lt.mpr free)
    · rw [Decimal.le_iff_value, Decimal.value_min, Decimal.value_zero, min_comm] at nothing
      exact .of_short (bargain.short_of_vain needed offered nothing) _
  · obtain ⟨gave, took, -, -, -⟩ := settle_eq_ok settled
    have grid := terms.grid bounded.base bounded.taker.counted sound.counted
    apply bargain.drained_of_deal needed offered terms grid
      ((Decimal.value_min _ _).trans (min_comm _ _)) gave took stays
    refine ⟨_, mem_trades_of_settle settled, ?_, rfl, rfl, rfl⟩
    rw [Trade.between, sells]

theorem sweepQueue_drains_taker {queue : OrderQueue} (buys : pass.taker.isMarketBuy = true)
    (live : pass.taker.isCompleted = false) (positive : 0 < price)
    (asks : ∀ maker ∈ queue, Asks price maker) (bounded : Bounded listing pass.taker queue)
    (walk : pass.sweepQueue listing now queue = .ok (later, kept))
    (still : later.taker.isCompleted = false) (some : kept ≠ []) :
    later.taker.Drained listing later.trades.toList price := by
  induction queue generalizing pass kept with
  | nil =>
      cases walk
      exact absurd rfl some
  | cons maker rest ih =>
      obtain ⟨first, others⟩ := List.forall_mem_cons.mp asks
      have split : Bounded listing pass.taker ([maker] ++ rest) := bounded
      obtain ⟨met, after, told, front, meeting, fate, tail⟩ := sweepQueue_cons walk
      obtain ⟨cleared, -⟩ := cleared_of_fate live first.live (Or.inr first.limit) meeting fate
      have told_buys := (marketBuy_of_cleared cleared).trans buys
      have further_bounded := split.further cleared
      rcases fate with ⟨-, -, rfl⟩ | ⟨stays, rfl, rfl⟩
      · -- this ask is gone, so it is one of the others that stays
        rcases tail with ⟨done, rfl, -⟩ | ⟨more, left, further, rfl⟩
        · rw [still] at done
          cases done
        · exact ih told_buys more others further_bounded further some
      · have drained := meet_drains_taker buys live positive first split.ahead meeting stays
        rcases tail with ⟨-, rfl, -⟩ | ⟨more, left, further, -⟩
        · exact drained
        · obtain ⟨⟨_, steps, -, -, -⟩, -⟩ := sweepQueue_cleared more
            (fun maker member => (others maker member).live)
            (fun maker member => Or.inr (others maker member).limit) further
          exact drained.later told_buys (further_bounded.advances steps).1
            (trades_of_dealings steps) le_rfl

/-- A market buy that has walked a ladder of asks is drained at each that is left. -/
theorem sweepLadder_drains {symbol : String} {ladder rest : Ladder}
    (buys : pass.taker.isMarketBuy = true) (live : pass.taker.isCompleted = false)
    (formed : ladder.WellFormed symbol .sell) (bounded : Bounded listing pass.taker ladder.orders)
    (walk : pass.sweepLadder listing now none ladder = .ok (later, rest))
    (still : later.taker.isCompleted = false) :
    ∀ level ∈ rest, later.taker.Drained listing later.trades.toList level.price := by
  induction ladder generalizing pass with
  | nil =>
      cases walk
      exact fun _ member => nomatch member
  | cons first others ih =>
      rw [Ladder.orders_cons] at bounded
      have asks : ∀ maker ∈ first.orders, Asks first.price maker := by
        intro maker member
        obtain ⟨limit, -, near⟩ := formed.placed first List.mem_cons_self maker member
        exact ⟨limit, (formed.rests first List.mem_cons_self maker member).live, near⟩
      rcases sweepLadder_cons walk with ⟨beyond, -, -⟩ | ⟨-, met, orders, queue, tail⟩
      · cases beyond
      · obtain ⟨cleared, -⟩ := sweepQueue_cleared live
          (fun maker member => (asks maker member).live)
          (fun maker member => Or.inr (asks maker member).limit) queue
        have met_buys := (marketBuy_of_cleared cleared).trans buys
        rcases tail with ⟨ended, rfl, rfl⟩ | ⟨rfl, more, further⟩
        · have some : orders ≠ [] := ended.resolve_right (by simp [still])
          have drained := sweepQueue_drains_taker buys live
            (formed.price_pos first List.mem_cons_self) asks bounded.ahead queue still some
          intro level member
          rw [Ladder.keep, if_neg (by simpa using some)] at member
          rcases List.mem_cons.mp member with rfl | worse
          · exact drained
          · have dearer := (List.pairwise_cons.mp formed.sorted).1 level worse
            rw [Side.better_iff_value] at dearer
            exact drained.later met_buys (.refl _) (List.Subset.refl _) (le_of_lt dearer)
        · exact ih met_buys more formed.tail (bounded.further cleared) further

theorem sweepQueue_drains_makers {queue : OrderQueue} (limit : pass.taker.kind = .limit)
    (sells : pass.taker.side = .sell) (live : pass.taker.isCompleted = false)
    (same : pass.taker.price = price) (positive : 0 < price)
    (waiting : ∀ maker ∈ queue, maker.isMarketBuy = true ∧ maker.isCompleted = false)
    (bounded : Bounded listing pass.taker queue)
    (walk : pass.sweepQueue listing now queue = .ok (later, kept))
    (still : later.taker.isCompleted = false) :
    ∀ record ∈ kept, record.Drained listing later.trades.toList price := by
  induction queue generalizing pass kept with
  | nil =>
      cases walk
      exact fun _ member => nomatch member
  | cons maker rest ih =>
      obtain ⟨⟨buys, opened⟩, others⟩ := List.forall_mem_cons.mp waiting
      have split : Bounded listing pass.taker ([maker] ++ rest) := bounded
      obtain ⟨met, after, told, front, meeting, fate, tail⟩ := sweepQueue_cons walk
      obtain ⟨cleared, fewer⟩ := cleared_of_fate live opened (Or.inl limit) meeting fate
      have further_bounded := split.further cleared
      obtain ⟨_, first_steps, -, -, -⟩ := cleared
      have terms := (dealings_terms first_steps).1
      rcases tail with ⟨done, rfl, -⟩ | ⟨more, left, further, rfl⟩
      · rw [still] at done
        cases done
      · have told_limit := (Order.kind_of_terms terms).trans limit
        obtain ⟨⟨_, steps, -, -, -⟩, -⟩ := sweepQueue_cleared more
          (fun maker member => (others maker member).2) (fun _ _ => Or.inl told_limit) further
        intro record member
        rcases List.mem_append.mp member with first | last
        · rcases fate with ⟨-, -, rfl⟩ | ⟨-, rfl, rfl⟩
          · cases first
          · obtain rfl := List.mem_singleton.mp first
            have drained := meet_drains_maker limit sells live (same ▸ positive) buys opened
              split.ahead meeting more
            obtain ⟨origin, known, terms'⟩ := fewer.exists_terms first
            obtain rfl := List.mem_singleton.mp known
            exact drained.later ((Order.marketBuy_of_terms terms').symm.trans buys) (.refl _)
              (trades_of_dealings steps) (by rw [same])
        · exact ih told_limit ((Order.side_of_terms terms).trans sells) more
            ((Order.price_of_terms terms).trans same) others further_bounded further record last

end Walks

end Pass

namespace OrderBook

/-- Whether every market buy that waits is drained at every ask. -/
def Drained (listing : Listing) (dealt : List Trade) (book : OrderBook) : Prop :=
  ∀ order ∈ book.queue .buy, ∀ level ∈ book.ladder .sell, order.Drained listing dealt level.price

section Drained
variable {listing : Listing} {dealt more : List Trade} {symbol : String} {book last : OrderBook}

theorem WellFormed.waits (formed : book.WellFormed symbol) {side : Side} {order : Order}
    (member : order ∈ book.ordersOf side) (market : order.kind = .market) :
    order ∈ book.queue side := by
  rcases List.mem_append.mp member with ladder | queue
  · obtain ⟨level, known, inside⟩ := Ladder.mem_orders.mp ladder
    rw [((formed.ladders side).placed level known order inside).1] at market
    cases market
  · exact queue

theorem WellFormed.waiting_buys (formed : book.WellFormed symbol) {order : Order}
    (waits : order ∈ book.queue .buy) : order.isMarketBuy = true := by
  obtain ⟨kind, side, -⟩ := formed.queues .buy order waits
  exact order.marketBuy_iff.mpr ⟨kind, side⟩

theorem Drained.remainder (drained : book.Drained listing dealt) (formed : book.WellFormed symbol)
    (among : dealt ⊆ more) (ladder : Ladder.Remainder (book.ladder .sell) (last.ladder .sell))
    (queue : ∀ record ∈ last.queue .buy, ∃ order ∈ book.queue .buy, order.Advances record) :
    last.Drained listing more := by
  intro record waits level member
  obtain ⟨order, waited, onward⟩ := queue record waits
  obtain ⟨earlier, known, price, -⟩ := ladder.exists_level member
  exact (drained order waited earlier known).later (formed.waiting_buys waited) onward among
    (by rw [price])

theorem Drained.place {order : Order} (drained : book.Drained listing dealt)
    (buyer : order.isMarketBuy = true →
      ∀ level ∈ book.ladder .sell, order.Drained listing dealt level.price)
    (seller : order.kind = .limit → order.side = .sell →
      ∀ waiting ∈ book.queue .buy, waiting.Drained listing dealt order.price) :
    (book.place order).Drained listing dealt := by
  -- only a new ask or a new waiting buy makes a pair that was not in the book
  unfold OrderBook.place
  cases kind : order.kind with
  | limit =>
      cases side : order.side with
      | buy =>
          rw [addLimit, side]
          exact drained
      | sell =>
          rw [addLimit, side]
          intro waiting waits level member
          rw [ladder_setLadder] at member
          rcases Ladder.price_of_mem_append member with price | ⟨old, known, price⟩
          · rw [price]
            exact seller kind side waiting waits
          · rw [price]
            exact drained waiting waits old known
  | market =>
      cases side : order.side with
      | buy =>
          rw [addMarket, side]
          intro waiting waits level member
          rw [queue_setQueue] at waits
          rcases List.mem_append.mp waits with old | new
          · exact drained waiting old level member
          · obtain rfl := List.mem_singleton.mp new
            exact buyer (waiting.marketBuy_iff.mpr ⟨kind, side⟩) level member
      | sell =>
          rw [addMarket, side]
          exact drained

end Drained

end OrderBook

namespace Market

section Draining
variable {listing : Listing} {now : Instant} {side : Side} {market after later : Market}
  {pass last : Pass} {order : Order} {dealt : List Trade}

theorem Stage.bounded (stage : Stage now side market pass last after)
    (bounded : Pass.Bounded market.listing pass.taker (market.book.ordersOf side.opposite)) :
    Pass.Bounded after.listing last.taker (after.book.ordersOf side.opposite) := by
  obtain ⟨done, steps, -, -, -⟩ := stage.cleared
  obtain ⟨taker, records, -⟩ := Pass.dealings_keep
    (Order.sound_keeps bounded.base bounded.quote) steps bounded.taker bounded.makers
  rw [stage.listing_eq]
  exact ⟨bounded.base, bounded.quote, taker,
    fun record member => records record (Multiset.mem_add.mpr (Or.inl member))⟩

theorem Stage.advances (stage : Stage now side market pass last after)
    (formed : market.book.WellFormed market.symbol)
    (bounded : Pass.Bounded market.listing pass.taker (market.book.ordersOf side.opposite)) :
    ∀ any, ∀ record ∈ after.book.queue any, ∃ origin ∈ market.book.queue any,
      origin.Advances record := by
  refine OrderBook.forall_side side ?_ ?_
  · intro record waits
    rw [stage.own_queue] at waits
    exact ⟨record, waits, .refl record⟩
  · intro record waits
    obtain ⟨done, steps, -, -, -⟩ := stage.cleared
    obtain ⟨origin, known, onward⟩ := (bounded.advances steps).2 record
      (Multiset.mem_add.mpr (Or.inl (List.mem_append_right _ waits)))
    have kind := (stage.formed.queues side.opposite record waits).1
    rw [Order.kind_of_terms onward.terms] at kind
    exact ⟨origin, formed.waits known kind, onward⟩

theorem matchOrder_drains_taker (formed : market.book.WellFormed market.symbol)
    (buys : order.isMarketBuy = true) (live : order.isCompleted = false)
    (bounded : Pass.Bounded market.listing order (market.book.ordersOf .sell))
    (matched : market.matchOrder now order = .ok (last, after))
    (still : last.taker.isCompleted = false) :
    ∀ level ∈ after.book.ladder .sell,
      last.taker.Drained market.listing last.trades.toList level.price := by
  obtain ⟨kind, own⟩ := order.marketBuy_iff.mp buys
  simp only [matchOrder, kind, matchLadder, Pass.start, live, Bool.false_eq_true, ↓reduceIte,
    bind_eq_ok, return_eq_ok, own, Side.opposite] at matched
  obtain ⟨⟨swept, ladder⟩, walk, same⟩ := matched
  cases same
  rw [OrderBook.ladder_setLadder]
  exact Pass.sweepLadder_drains buys live (formed.ladders .sell) bounded.ahead walk still

theorem matchQueue_drains_makers (formed : market.book.WellFormed market.symbol)
    (limit : pass.taker.kind = .limit) (sells : pass.taker.side = .sell)
    (positive : 0 < pass.taker.price)
    (bounded : Pass.Bounded market.listing pass.taker (market.book.ordersOf .buy))
    (matched : market.matchQueue now pass = .ok (last, after))
    (still : last.taker.isCompleted = false) :
    ∀ record ∈ after.book.queue .buy,
      record.Drained market.listing last.trades.toList pass.taker.price := by
  unfold matchQueue at matched
  simp only [sells, Side.opposite] at matched
  split_ifs at matched with done
  · cases matched
    rw [still] at done
    cases done
  · obtain ⟨⟨swept, queue⟩, walk, same⟩ := (bind_eq_ok _ _ _).mp matched
    cases same
    rw [OrderBook.queue_setQueue]
    refine Pass.sweepQueue_drains_makers limit sells (Bool.eq_false_iff.mpr done) rfl positive ?_
      bounded.behind walk still
    intro maker member
    exact ⟨formed.waiting_buys member, (formed.queues .buy maker member).2.2.live⟩

theorem matchOrder_drains_makers (formed : market.book.WellFormed market.symbol)
    (limit : order.kind = .limit) (sells : order.side = .sell) (positive : 0 < order.price)
    (bounded : Pass.Bounded market.listing order (market.book.ordersOf .buy))
    (matched : market.matchOrder now order = .ok (last, after))
    (still : last.taker.isCompleted = false) :
    ∀ record ∈ after.book.queue .buy,
      record.Drained market.listing last.trades.toList order.price := by
  obtain ⟨first, shared, second, swept, -, -, queued, sharing, sweeping, -⟩ :=
    matchOrder_limit formed limit matched
  have before := sharing.trans sweeping
  have terms : second.taker.terms = order.terms := before.taker_terms
  rw [sells] at before
  have second_bounded := before.bounded bounded
  rw [← Order.price_of_terms terms] at positive ⊢
  rw [← before.listing_eq]
  exact matchQueue_drains_makers before.formed_after ((Order.kind_of_terms terms).trans limit)
    ((Order.side_of_terms terms).trans sells) positive second_bounded queued still

theorem drained_of_trade {report : Report} (formed : market.book.WellFormed market.symbol)
    (bounded : Pass.Bounded market.listing order (market.book.ordersOf order.side.opposite))
    (drained : market.book.Drained market.listing dealt)
    (traded : market.trade now order = .ok (.processed report, later)) :
    later.book.Drained market.listing (dealt ++ report.trades) := by
  rcases trade_cases traded with
    ⟨_, refused, -, -⟩ | ⟨_, pass, after, told, accepts, matched, ended⟩
  · cases refused
  cases told
  have stage := matchOrder_stage formed matched
  have terms : pass.taker.terms = order.terms := stage.taker_terms
  obtain ⟨trades, -, ending⟩ := finish_cases ended
  rw [trades]
  have among := List.subset_append_right dealt pass.trades.toList
  have between := drained.remainder formed (List.subset_append_left dealt pass.trades.toList)
    (stage.ladders .sell) (stage.advances formed bounded .buy)
  rcases ending with ⟨-, -, -, same⟩ | ⟨live, -, -, same⟩
  · rw [same]
    exact between
  · rw [same]
    apply between.place
    · intro buys level member
      have own := (Order.marketBuy_of_terms terms).symm.trans buys
      rw [(order.marketBuy_iff.mp own).2] at bounded
      have left := matchOrder_drains_taker formed own accepts.rests.live bounded matched live
      exact (left level member).later buys (.refl _) among le_rfl
    · intro kind side waiting waits
      rw [Order.kind_of_terms terms] at kind
      rw [Order.side_of_terms terms] at side
      rw [side] at bounded
      have left := matchOrder_drains_makers formed kind side (accepts.price_pos kind) bounded
        matched live
      rw [Order.price_of_terms terms]
      exact (left waiting waits).later (stage.formed.waiting_buys waits) (.refl _) among le_rfl

/-- No action leaves a market buy waiting that is not drained. -/
theorem drained_perform {action : Action} {answer : Answer}
    (formed : market.book.WellFormed market.symbol)
    (bounded : ∀ order ∈ Action.orders [action],
      Pass.Bounded market.listing order (market.book.ordersOf order.side.opposite))
    (drained : market.book.Drained market.listing dealt)
    (performed : market.perform action = .ok (answer, later)) :
    later.book.Drained market.listing (dealt ++ History.trades [(action, answer)]) := by
  have among := List.subset_append_left dealt (History.trades [(action, answer)])
  rcases perform_cases formed performed with
    ⟨now, order, report, pass, left, rfl, rfl, processes⟩ | ⟨_, _, -, -, removes, -⟩ | ⟨-, frame⟩
  · rw [History.trades_processed]
    exact drained_of_trade formed (bounded order (List.mem_singleton_self _)) drained
      processes.traded
  · apply drained.remainder formed among (removes.ladders .sell)
    intro record waits
    -- who still waits stood in the book, and there it waited too
    have stood : record ∈ market.book.orders := by
      rw [← Multiset.mem_coe, removes.orders]
      exact Multiset.mem_cons_of_mem
        (OrderBook.mem_orders.mpr ⟨.buy, List.mem_append_right _ waits⟩)
    obtain ⟨kind, side, -⟩ := (removes.formed formed).queues .buy record waits
    obtain ⟨own, inside⟩ := OrderBook.mem_orders.mp stood
    rw [← (formed.rests inside).1, side] at inside
    exact ⟨record, formed.waits inside kind, .refl record⟩
  · rw [frame]
    exact drained.remainder formed among (.refl _) fun record waits => ⟨record, waits, .refl record⟩

end Draining

end Market

theorem drained_of_replay {listing : Listing} {actions : List Action} {history : History}
    {market : Market} (run : Market.replay listing actions = .ok (history, market))
    (base : listing.baseScale ≤ 8) (quote : listing.quoteScale ≤ 8)
    (sound : ∀ order ∈ Action.orders actions, order.Sound) :
    market.book.Drained listing (History.trades history) := by
  have kept := Market.replay_induction (motive := fun history market =>
    (∀ order ∈ History.submitted history, order.Sound) → market.listing = listing ∧
      History.Holds listing Order.Sound history market ∧
        market.book.Drained listing (History.trades history)) ?_ ?_ run
  · rw [Market.submitted_of_replay run] at kept
    exact (kept sound).2.2
  · exact fun _ => ⟨rfl, .start listing Order.Sound, fun _ waits => nomatch waits⟩
  · intro history before later action answer formed kept performed sound
    rw [History.submitted_append] at sound
    obtain ⟨earlier, last⟩ := List.forall_mem_append.mp sound
    obtain ⟨rfl, holds, drained⟩ := kept earlier
    refine ⟨(Market.wellFormed_perform formed performed).1, ?_, ?_⟩
    · exact holds.perform (Order.sound_keeps base quote) rfl formed
        (fun order member _ => last order member) performed
    · rw [History.trades_append]
      apply Market.drained_perform formed _ drained performed
      intro order member
      exact ⟨base, quote, last order member, fun maker inside =>
        holds.resting maker (OrderBook.mem_orders.mpr ⟨_, inside⟩)⟩

/-- What a market buy that waits could still take at the best ask is worth less than a
unit of a quantity and a unit of money at that price; and it is nothing, unless one of
its trades was charged less than its value. -/
theorem waiting_buy_takes_little {listing : Listing} {actions : List Action} {history : History}
    {market : Market} (run : Market.replay listing actions = .ok (history, market))
    (base : listing.baseScale ≤ 8) (quote : listing.quoteScale ≤ 8)
    (sound : ∀ order ∈ Action.orders actions, order.Sound) {ask : Decimal}
    (best : market.book.bestAsk? = some ask) {order : Order}
    (waits : order ∈ market.book.queue .buy) :
    ∃ quantity, order.availableAt ask listing.baseScale = .ok quantity ∧ 0 ≤ quantity ∧
      quantity.value * ask.value <
        ask.value / tenTo listing.baseScale + 1 / tenTo listing.quoteScale ∧
      (quantity ≈ 0 ∨
        ∃ trade ∈ History.trades history, trade.buyNumber = order.number ∧ trade.isCut = true) := by
  obtain ⟨-, formed⟩ := Market.wellFormed_of_replay run
  have holds := History.holds_of_replay (Order.sound_keeps base quote) run
    fun order member _ => sound order member
  obtain ⟨level, first, rfl⟩ := Option.map_eq_some_iff.mp best
  have member := List.mem_of_mem_head? first
  have ladder := formed.ladders .sell
  -- the price of the level is that of an order in it
  have priced : level.price.Moderate := by
    obtain ⟨seller, inside⟩ := List.exists_mem_of_ne_nil _ (ladder.occupied level member)
    obtain ⟨limit, -, near⟩ := ladder.placed level member seller inside
    have stands := OrderBook.mem_orders.mpr
      ⟨.sell, List.mem_append_left _ (Ladder.mem_orders.mpr ⟨level, member, inside⟩)⟩
    exact ((holds.resting seller stands).priced limit).of_value
      ((Decimal.equiv_iff_value _ _).mp near).symm
  have positive : 0 < level.price.value := by
    simpa [Decimal.lt_iff_value] using ladder.price_pos level member
  have buys := formed.waiting_buys waits
  have funded := (holds.resting order (OrderBook.mem_orders.mpr
    ⟨.buy, List.mem_append_right _ waits⟩)).funded buys
  have drained := drained_of_replay run base quote sound order waits level member
  obtain ⟨quantity, needed⟩ := funded.exists_available buys priced positive
  have affords := funded.affords buys base priced positive needed
  refine ⟨quantity, needed, ?_, affords.most.trans_lt drained.little, ?_⟩
  · rw [Decimal.le_iff_value, Decimal.value_zero]
    exact affords.nonneg
  · rcases drained.excused with short | cut
    · apply Or.inl
      rw [Decimal.equiv_iff_value, Decimal.value_zero]
      exact le_antisymm (affords.nothing_of_short positive short) affords.nonneg
    · exact Or.inr cut

def History.restingBuyActions : List Action :=
  History.buyActions ["ask"] (.ofParts 333 2) (.ofParts 10 0) (.ofParts 13 2)

theorem sample_waiting_buy : ∃ history market,
    Market.replay (.coarse 2 2) History.restingBuyActions = .ok (history, market) ∧
      market.book.bestAsk? = some (.ofParts 333 2) ∧
      ∃ order ∈ market.book.queue .buy, ∃ quantity,
        order.availableAt (.ofParts 333 2) 2 = .ok quantity ∧
          quantity.value * (Decimal.ofParts 333 2).value <
            (Decimal.ofParts 333 2).value / tenTo 2 + 1 / tenTo 2 := by
  have run : ∃ result, Market.replay (.coarse 2 2) History.restingBuyActions = .ok result ∧
      result.2.book.bestAsk? = some (.ofParts 333 2) ∧
      (result.2.book.queue .buy).map Order.number = ["buy"] :=
    ⟨_, rfl, by decide +kernel, by decide +kernel⟩
  obtain ⟨⟨history, market⟩, ran, best, numbers⟩ := run
  obtain ⟨order, waits⟩ := List.exists_mem_of_ne_nil (market.book.queue .buy) (by
    intro none
    simp [none] at numbers)
  have fresh : ∀ order ∈ Action.orders History.restingBuyActions, order.Fresh :=
    History.fresh_buyActions _ (Decimal.moderate_ofParts (by decide)) (by decide)
      (Decimal.moderate_ofParts (by decide)) (by decide) (Decimal.moderate_ofParts (by decide))
      (by decide)
  obtain ⟨quantity, needed, -, little, -⟩ := waiting_buy_takes_little ran (by decide) (by decide)
    (fun order member => (fresh order member).sound) best waits
  exact ⟨history, market, ran, best, order, waits, quantity, needed, little⟩

/-- A market buy of 0.13 is charged 0.09 for 0.0999, and waits though what it has left
buys more at the best ask. -/
theorem waiting_buy_could_go_on : ∃ history market ask,
    Market.replay (.coarse 2 2) History.restingBuyActions = .ok (history, market) ∧
      market.book.bestAsk? = some ask ∧
      ∃ order ∈ market.book.queue .buy, ∃ quantity,
        order.availableAt ask 2 = .ok quantity ∧ 0 < quantity := by
  have run : ∃ history market ask order rest quantity,
      Market.replay (.coarse 2 2) History.restingBuyActions = .ok (history, market) ∧
        market.book.bestAsk? = some ask ∧ market.book.queue .buy = order :: rest ∧
        order.availableAt ask 2 = .ok quantity ∧ 0 < quantity :=
    ⟨_, _, _, _, _, _, rfl, rfl, rfl, rfl, by decide +kernel⟩
  obtain ⟨history, market, ask, order, rest, quantity, ran, best, queue, needed, some⟩ := run
  exact ⟨history, market, ask, ran, best, order, queue ▸ List.mem_cons_self, quantity, needed, some⟩

end SpotExchange
