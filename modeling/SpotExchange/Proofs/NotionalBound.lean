import SpotExchange.Proofs.OrderLimits

/-!
What a market buy takes for its money. A trade is charged the money of its value
cut to the places of the listing, and only that counts against the order. So the
money never exceeds what the order came with, but the value does, by less than one
unit of money for each trade that was cut, however many of them there are.
-/

namespace SpotExchange

/-- What the quantity of a trade is worth at its price, before it is cut. -/
def Trade.value (trade : Trade) : ℚ := trade.amount.value * trade.price.value

/-- Whether a trade was charged less than its value. -/
def Trade.isCut (trade : Trade) : Bool := trade.money.value < trade.value

namespace Pass

section Facts
variable {listing : Listing} {first second : Order → Prop}

theorem Keeps.and (left : Keeps listing first) (right : Keeps listing second) :
    Keeps listing fun order => first order ∧ second order := by
  intro taker maker taken given price amount money own other terms took gave
  obtain ⟨a, b⟩ := left own.1 other.1 terms took gave
  obtain ⟨c, d⟩ := right own.2 other.2 terms took gave
  exact ⟨⟨a, c⟩, ⟨b, d⟩⟩

theorem Keeps.ofTerms (listing : Listing) (good : Order → Prop) :
    Keeps listing fun order => good order.terms := by
  intro taker maker taken given price amount money own other terms took gave
  change good taken.terms ∧ good given.terms
  rw [Order.terms_fill took, Order.terms_fill gave]
  exact ⟨own, other⟩

end Facts

end Pass

namespace Order

theorem filledMoney_afterTrades {order last : Order} {trades : List Trade}
    (buys : order.isMarketBuy = true) (amount : order.amount.value ≤ 10 ^ 10)
    (grid : order.filledMoney.OnGrid 8) (nonneg : 0 ≤ order.filledMoney.value)
    (closed : order.Spent → order.status.isTerminal = true)
    (charged : ∀ trade ∈ trades, trade.money.OnGrid 8 ∧ 0 ≤ trade.money.value ∧
      trade.money.value ≤ 10 ^ 10)
    (followed : order.afterTrades trades = .ok (some last)) :
    last.filledMoney.value =
      order.filledMoney.value + (trades.map fun trade => trade.money.value).sum := by
  induction trades generalizing order with
  | nil =>
      cases followed
      simp
  | cons trade rest ih =>
      obtain ⟨live, next, filled, after⟩ := of_afterTrades_cons followed
      obtain ⟨-, paid, terms, -, done⟩ := fill_of_open live filled
      obtain ⟨⟨money_grid, money_nonneg, money_most⟩, others⟩ := List.forall_mem_cons.mp charged
      -- a market buy that takes one more trade had money left before it
      have unspent : order.filledMoney.value < order.amount.value := by
        have rest := mt closed (by rw [live]; exact Bool.false_ne_true)
        simp only [Spent, buys, ↓reduceIte, Decimal.le_iff_value, not_le] at rest
        exact rest
      obtain ⟨sum, same, value⟩ := Decimal.add_exact grid money_grid (by
        rw [abs_of_nonneg (add_nonneg nonneg money_nonneg), Decimal.tenTo_cast]
        norm_num [Decimal.bound]
        linarith)
      obtain rfl : sum = next.filledMoney := Except.ok.inj (same.symm.trans paid)
      have whole := ih ((marketBuy_of_terms terms).trans buys)
        (amount_of_terms terms ▸ amount) (Decimal.onGrid_of_value_add grid money_grid value)
        (value ▸ add_nonneg nonneg money_nonneg) (fun spent => by rw [done spent]; rfl) others after
      rw [whole, value, List.map_cons, List.sum_cons, add_assoc]

end Order

namespace History

section Run
variable {listing : Listing} {actions : List Action} {history : History} {market : Market}
  (run : Market.replay listing actions = .ok (history, market))
  (base : listing.baseScale ≤ 8) (quote : listing.quoteScale ≤ 8)
  (fresh : ∀ order ∈ Action.orders actions, order.Fresh)
  (distinct : ((Action.orders actions).map Order.number).Nodup)
  {order : Order} (known : order ∈ Action.orders actions) (buys : order.isMarketBuy = true)
include run base quote fresh distinct known buys

/-- A trade of a market buy is charged its value, cut, and is worth no more than the
order came with. -/
theorem charges_of_market_buy {trade : Trade} (member : trade ∈ trades history)
    (named : trade.names order.number = true) :
    Pass.Charges listing trade.price trade.amount trade.money ∧
      trade.value ≤ order.amount.value := by
  have keeps : Pass.Keeps listing fun order => order.Sound ∧
      ∃ origin ∈ Action.orders actions, origin.terms = order.terms :=
    Pass.Keeps.and (Order.sound_keeps base quote) (Pass.Keeps.ofTerms listing fun terms =>
      ∃ origin ∈ Action.orders actions, origin.terms = terms)
  have holds := holds_of_replay keeps run
    fun order member _ => ⟨(fresh order member).sound, order, member, rfl⟩
  obtain ⟨taker, maker, now, ⟨own, own_origin⟩, ⟨other, other_origin⟩, terms, same⟩ :=
    holds.dealt trade member
  have grid := terms.grid base own.counted other.counted
  have priced := terms.moderate own.priced other.priced
  -- the one of the two with this number has the terms of the market buy
  have pays {party : Order} (sound : party.Sound)
      (origin : ∃ origin ∈ Action.orders actions, origin.terms = party.terms)
      (number : party.number = order.number)
      (offer : ∃ need, party.availableAt trade.price listing.baseScale = .ok need ∧
        trade.amount ≤ need) :
      Pass.Charges listing trade.price trade.amount trade.money ∧
        trade.value ≤ order.amount.value := by
    obtain ⟨origin, submitted, same⟩ := origin
    obtain rfl : origin = order := List.inj_on_of_nodup_map distinct submitted known
      ((Order.number_of_terms same).trans number)
    have buyer := (Order.marketBuy_of_terms same).symm.trans buys
    have funded := sound.funded buyer
    obtain ⟨charges, within⟩ := funded.charges buyer base quote terms grid priced offer
    refine ⟨charges, ?_⟩
    rw [Order.amount_of_terms same]
    exact within.trans (sub_le_self _ funded.money_nonneg)
  rw [same, Trade.names_between] at named
  rcases named with number | number
  · exact pays own own_origin number terms.within_taker
  · exact pays other other_origin number terms.within_maker

theorem money_sum_le : ((Trade.naming order.number (trades history)).map fun trade =>
    trade.money.value).sum ≤ order.amount.value := by
  have submitted := Market.submitted_of_replay run
  have accounted := accounted_of_replay run (submitted ▸ distinct)
  have fewer := accepted_sublist history
  rw [submitted] at fewer
  have once := distinct.sublist (fewer.map Order.number)
  have start := fresh order known
  by_cases accepted : order ∈ accepted history
  · -- what its trades were charged is what the record of the order says it spent
    obtain ⟨record, member, number⟩ := exists_record accounted accepted
    obtain ⟨last, followed, same⟩ := record_of_number accounted once accepted member number
    have unpaid := (Decimal.equiv_iff_value _ _).mp start.unpaid
    rw [Decimal.value_zero] at unpaid
    have sum := Order.filledMoney_afterTrades buys start.amount.most
      (start.sound.funded buys).money_grid unpaid.ge (fun spent => by
        rw [start.sound.closed spent]
        rfl) (by
        intro trade inside
        obtain ⟨dealt, named⟩ := List.mem_filter.mp inside
        obtain ⟨charges, worth⟩ := charges_of_market_buy run base quote fresh distinct known buys
          dealt named
        exact ⟨charges.grid, charges.nonneg, charges.most.trans (worth.trans start.amount.most)⟩)
      followed
    have limits := (orders_within_limits run base quote fresh record member).most
    have terms := Order.terms_afterTrades followed
    have buyer := (Order.marketBuy_of_terms terms).trans buys
    have used : record.used = last.filledMoney ∧ record.amount = order.amount := by
      rcases same with rfl | rfl
      · exact ⟨by rw [Order.used, if_pos buyer], Order.amount_of_terms terms⟩
      · have cancelled := Order.terms_cancel last
        rw [Order.used, Order.marketBuy_of_terms cancelled, if_pos buyer,
          Order.filledMoney_cancel, Order.amount_of_terms cancelled]
        exact ⟨rfl, Order.amount_of_terms terms⟩
    rw [unpaid, zero_add] at sum
    rw [used.1, used.2, Decimal.le_iff_value, sum] at limits
    exact limits
  · -- nothing names an order that was refused
    have none : Trade.naming order.number (trades history) = [] := by
      apply Trade.naming_eq_nil
      intro trade member named
      obtain ⟨other, inside, same⟩ :=
        List.mem_map.mp (accounted.named trade member order.number named)
      obtain rfl := List.inj_on_of_nodup_map distinct (fewer.subset inside) known same
      exact accepted inside
    rw [none]
    exact start.amount.nonneg

end Run

/-- Of trades that are each charged their value up to a unit, only those that were
cut are charged less. -/
theorem value_sum_le {unit : ℚ} {dealt : List Trade}
    (charged : ∀ trade ∈ dealt, trade.value ≤ trade.money.value + unit) :
    (dealt.map Trade.value).sum ≤ (dealt.map fun trade => trade.money.value).sum +
      (dealt.filter Trade.isCut).length * unit := by
  induction dealt with
  | nil => simp
  | cons trade rest ih =>
      obtain ⟨first, others⟩ := List.forall_mem_cons.mp charged
      have tail := ih others
      simp only [List.map_cons, List.sum_cons]
      by_cases cut : trade.isCut = true
      · rw [List.filter_cons_of_pos cut, List.length_cons]
        push_cast
        linarith
      · have whole : trade.value ≤ trade.money.value := by
          simpa [Trade.isCut] using cut
        rw [List.filter_cons_of_neg cut]
        linarith

end History

/-- A market buy is charged at most what it came with, and each of its trades its
value cut to the places of money. What it took may be worth more than it came with,
by less than one unit of money for each trade that was cut. -/
theorem market_buy_value_bound {listing : Listing} {actions : List Action} {history : History}
    {market : Market} (run : Market.replay listing actions = .ok (history, market))
    (base : listing.baseScale ≤ 8) (quote : listing.quoteScale ≤ 8)
    (fresh : ∀ order ∈ Action.orders actions, order.Fresh)
    (distinct : ((Action.orders actions).map Order.number).Nodup) {order : Order}
    (known : order ∈ Action.orders actions) (buys : order.isMarketBuy = true) :
    let own := Trade.naming order.number (History.trades history)
    let unit : ℚ := 1 / tenTo listing.quoteScale
    (∀ trade ∈ own, trade.money.value ≤ trade.value ∧ trade.value < trade.money.value + unit) ∧
      (own.map fun trade => trade.money.value).sum ≤ order.amount.value ∧
      (own.map Trade.value).sum ≤
        order.amount.value + (own.filter Trade.isCut).length * unit := by
  intro own unit
  have scale := Decimal.tenTo_pos_rat listing.quoteScale
  have charged : ∀ trade ∈ own,
      trade.money.value ≤ trade.value ∧ trade.value < trade.money.value + unit := by
    intro trade member
    obtain ⟨dealt, named⟩ := List.mem_filter.mp member
    obtain ⟨charges, -⟩ :=
      History.charges_of_market_buy run base quote fresh distinct known buys dealt named
    refine ⟨charges.most, ?_⟩
    rw [← mul_lt_mul_iff_of_pos_right scale, add_mul, one_div_mul_cancel scale.ne']
    exact charges.least
  have money := History.money_sum_le run base quote fresh distinct known buys
  have value := History.value_sum_le fun trade member => (charged trade member).2.le
  exact ⟨charged, money, by linarith⟩

def History.wholeActions : List Action :=
  History.buyActions ["first", "second", "third"] (.ofParts 4 1) (.ofParts 2 0) (.ofParts 1 0)

theorem sample_value_bound : ∃ history market,
    Market.replay (.coarse 0 0) History.wholeActions = .ok (history, market) ∧
      ((Trade.naming "buy" (History.trades history)).filter Trade.isCut).length = 3 ∧
      ((Trade.naming "buy" (History.trades history)).map Trade.value).sum ≤ 4 := by
  have run : ∃ result, Market.replay (.coarse 0 0) History.wholeActions = .ok result ∧
      ((Trade.naming "buy" (History.trades result.1)).filter Trade.isCut).length = 3 :=
    ⟨_, rfl, by decide +kernel⟩
  obtain ⟨⟨history, market⟩, ran, cut⟩ := run
  let buy : Order := .market "buy" 2 "coin" .buy (.ofParts 1 0) default
  have known : buy ∈ Action.orders History.wholeActions := by decide +kernel
  have bounds := market_buy_value_bound ran (by decide) (by decide)
    (History.fresh_buyActions _ (Decimal.moderate_ofParts (by decide)) (by decide)
      (Decimal.moderate_ofParts (by decide)) (by decide) (Decimal.moderate_ofParts (by decide))
      (by decide)) (by decide +kernel) known rfl
  refine ⟨history, market, ran, cut, ?_⟩
  have last := bounds.2.2
  change _ ≤ (Decimal.ofParts 1 0).value + (((Trade.naming "buy" (History.trades history)).filter
    Trade.isCut).length : ℚ) * _ at last
  rw [cut] at last
  norm_num [Decimal.value_ofParts, tenTo, Listing.coarse] at last
  exact last

/-- A market buy for one is sold six at 0.4, and is charged nothing for them. -/
theorem value_exceeds_notional : ∃ history market,
    Market.replay (.coarse 0 0) History.wholeActions = .ok (history, market) ∧
      (Decimal.ofParts 1 0).value + 1 / tenTo 0 <
        ((Trade.naming "buy" (History.trades history)).map Trade.value).sum := by
  have run : ∃ result, Market.replay (.coarse 0 0) History.wholeActions = .ok result ∧
      (Decimal.ofParts 1 0).value + 1 / tenTo 0 <
        ((Trade.naming "buy" (History.trades result.1)).map Trade.value).sum :=
    ⟨_, rfl, by decide +kernel⟩
  obtain ⟨⟨history, market⟩, ran, more⟩ := run
  exact ⟨history, market, ran, more⟩

end SpotExchange
