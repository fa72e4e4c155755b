import SpotExchange.Proofs.OrderInvariant
import SpotExchange.Proofs.RoundedValue

/-!
Orders that come once more. An order that rests after a run can be handed to an empty
market of the same listing, and rests there as it was. The one exception is a market buy
that has bought at least as many units as it has money to spend: what is filled of it is
a quantity, but it is measured against the money when it comes, and it is refused.
-/

namespace SpotExchange

theorem Order.filled_nonneg_of_fill {order later : Order} {quantity money : Decimal}
    (nonneg : 0 ≤ order.filledAmount.value) (live : order.isCompleted = false)
    (positive : 0 < quantity.value) (filled : order.fill quantity money = .ok later) :
    0 ≤ later.filledAmount.value := by
  obtain ⟨added, -, -, -, -⟩ := Order.fill_of_open (Order.not_terminal_of_open live) filled
  exact (Decimal.add_pos nonneg positive added).le

theorem Pass.filled_nonneg_keeps (listing : Listing) :
    Keeps listing fun order => 0 ≤ order.filledAmount.value := by
  intro taker maker taken given price amount money own other terms took gave
  have positive := Decimal.pos_iff.mp terms.amount_pos
  exact ⟨Order.filled_nonneg_of_fill own terms.taker_open positive took,
    Order.filled_nonneg_of_fill other terms.maker_open positive gave⟩

namespace OrderBook

section Empty
variable (side : Side)

@[simp] theorem ladder_empty : OrderBook.empty.ladder side = [] := by
  cases side <;> rfl

@[simp] theorem queue_empty : OrderBook.empty.queue side = [] := by
  cases side <;> rfl

@[simp] theorem setLadder_empty : OrderBook.empty.setLadder side [] = OrderBook.empty := by
  cases side <;> rfl

@[simp] theorem setQueue_empty : OrderBook.empty.setQueue side [] = OrderBook.empty := by
  cases side <;> rfl

end Empty

end OrderBook

namespace Market

section Empty
variable {market : Market} {order : Order} {now : Instant}

theorem price_pos_of_rests (formed : market.book.WellFormed market.symbol) {side : Side}
    (inside : order ∈ market.book.ordersOf side) (limit : order.kind = .limit) :
    0 < order.price := by
  rcases List.mem_append.mp inside with placed | waiting
  · obtain ⟨level, known, queued⟩ := Ladder.mem_orders.mp placed
    have near := ((formed.ladders side).placed level known order queued).2.2
    rw [Decimal.equiv_iff_value] at near
    rw [Decimal.lt_iff_value, near, ← Decimal.lt_iff_value]
    exact (formed.ladders side).price_pos level known
  · have market := (formed.queues side order waiting).1
    rw [limit] at market
    cases market

theorem matchLadder_empty (nobody : market.book = OrderBook.empty) (limit : Option Decimal)
    (pass : Pass) : market.matchLadder now limit pass = .ok (pass, market) := by
  have same : { market with book := OrderBook.empty } = market := by rw [← nobody]
  unfold matchLadder
  split_ifs
  · rfl
  · simp only [nobody, OrderBook.ladder_empty, Pass.sweepLadder, bind, Except.bind, pure,
      Except.pure, OrderBook.setLadder_empty, same]

theorem matchQueue_empty (nobody : market.book = OrderBook.empty) (pass : Pass) :
    market.matchQueue now pass = .ok (pass, market) := by
  have same : { market with book := OrderBook.empty } = market := by rw [← nobody]
  unfold matchQueue
  split_ifs
  · rfl
  · simp only [nobody, OrderBook.queue_empty, Pass.sweepQueue, bind, Except.bind, pure, Except.pure,
      OrderBook.setQueue_empty, same]

theorem matchApportioned_empty (nobody : market.book = OrderBook.empty) (pass : Pass) :
    market.matchApportioned now pass = .ok (pass, market) := by
  have same : { market with book := OrderBook.empty } = market := by rw [← nobody]
  have shared : pass.apportion market.listing now [] = .ok (pass, []) := rfl
  unfold matchApportioned
  split_ifs
  · simp only [nobody, OrderBook.ladder_empty, shared, bind, Except.bind, pure, Except.pure,
      OrderBook.setLadder_empty, same]
  · rfl

theorem matchOrder_empty (nobody : market.book = OrderBook.empty) (order : Order) :
    market.matchOrder now order = .ok (.start order, market) := by
  unfold matchOrder
  cases order.kind with
  | market => exact matchLadder_empty nobody none _
  | limit =>
      simp only [matchApportioned_empty nobody, matchLadder_empty nobody, matchQueue_empty nobody,
        bind, Except.bind]

theorem exists_insert_empty {view : DepthView} (none : view.rows = []) {remaining : Decimal}
    (left : order.remaining = .ok remaining) : ∃ result, view.insert order = .ok result := by
  unfold DepthView.insert
  split_ifs
  · rw [left, none]
    by_cases nothing : remaining ≤ 0
    · exact ⟨_, by simp only [bind, Except.bind, if_pos nothing]; rfl⟩
    · simp only [bind, Except.bind, if_neg nothing]
      cases view.maxDepth <;> exact ⟨_, rfl⟩
  · exact ⟨_, rfl⟩

theorem setDepth_depth (market : Market) (side : Side) :
    market.setDepth side (market.depth side) = market := by
  cases side <;> rfl

theorem exists_rest_empty (none : (market.depth order.side).rows = []) {remaining : Decimal}
    (left : order.remaining = .ok remaining) : ∃ result, market.rest order = .ok result := by
  obtain ⟨⟨changed, view⟩, inserted⟩ := exists_insert_empty none left
  unfold rest
  cases order.kind with
  | market => exact ⟨_, rfl⟩
  | limit => exact ⟨_, (bind_eq_ok _ _ _).mpr ⟨_, inserted, rfl⟩⟩

theorem exists_finish_start (none : (market.depth order.side).rows = []) {remaining : Decimal}
    (left : order.remaining = .ok remaining) :
    ∃ report later, market.finish (.start order) = .ok (report, later) := by
  have applied : market.applyDeltas order.side.opposite [] = .ok ([], market) :=
    congrArg (fun viewed => Except.ok ([], viewed)) (setDepth_depth market order.side.opposite)
  obtain ⟨⟨changed, rested⟩, placed⟩ := exists_rest_empty none left
  simp only [finish, Pass.start, applied, placed, bind, Except.bind]
  cases order.isCompleted <;> exact ⟨_, _, rfl⟩

end Empty

/-- Whether an order comes to rest on an empty market as it is, without a trade. -/
def Readmits (listing : Listing) (now : Instant) (order : Order) : Prop :=
  ∃ report later,
    (ofListing listing).resume.trade now order = .ok (.processed report, later) ∧
      report.trades = [] ∧ report.completed = [] ∧ report.resting = some order ∧
      later.book = OrderBook.empty.place order

section Reentry
variable {listing : Listing} {now : Instant} {order : Order}

theorem readmits_of_accepts (accepts : (ofListing listing).resume.Accepts order) :
    Readmits listing now order := by
  obtain ⟨remaining, left, -⟩ := accepts.remaining_pos
  obtain ⟨report, later, ended⟩ : ∃ report later,
      (ofListing listing).resume.finish (.start order) = .ok (report, later) :=
    exists_finish_start (by cases order.side <;> rfl) left
  obtain ⟨trades, -, ending⟩ := finish_cases ended
  rcases ending with ⟨done, -, -, -⟩ | ⟨-, completed, resting, book⟩
  · exact absurd (done.symm.trans accepts.rests.live) (by decide)
  · refine ⟨report, later, ?_, trades, completed, resting, book⟩
    have nobody : (ofListing listing).resume.book = OrderBook.empty := rfl
    simp only [trade, refusal?_of_accepts accepts, matchOrder_empty nobody, ended, bind,
      Except.bind]
    rfl

/-- An open order is accepted by an empty market if its amount exceeds what is filled of
it, and else there is nothing to fill. -/
theorem reentry_of_rests (rests : order.Rests listing.name)
    (priced : order.kind = .limit → 0 < order.price) (filled : 0 ≤ order.filledAmount.value) :
    (order.filledAmount < order.amount → Readmits listing now order) ∧
      (order.amount ≤ order.filledAmount → (ofListing listing).resume.trade now order =
        .ok (.refused .nothingToFill, (ofListing listing).resume)) := by
  have asked := Decimal.pos_iff.mp rests.amount_pos
  obtain ⟨remaining, left, sign⟩ := Decimal.exists_sub asked.le filled
  constructor
  · intro some
    rw [Decimal.lt_iff_value, ← sign, ← Decimal.pos_iff] at some
    exact readmits_of_accepts ⟨rfl, rests, ⟨remaining, left, some⟩, priced⟩
  · intro enough
    rw [Decimal.le_iff_value, ← not_lt, ← sign, ← Decimal.pos_iff] at enough
    have none : remaining ≤ 0 := by
      rwa [Decimal.nonpos_iff, ← not_lt, ← Decimal.pos_iff]
    have free : ¬ order.amount ≤ 0 := Decimal.not_nonpos_iff.mpr asked
    have refused : (ofListing listing).resume.refusal? order = .ok (some .nothingToFill) := by
      simp only [refusal?, resume, symbol, ofListing, rests.symbol_eq, free, Order.remaining, left,
        none, Bool.false_eq_true, ↓reduceIte, ne_eq, not_true_eq_false, true_or, bind, Except.bind]
      rfl
    simp only [trade, refused, bind, Except.bind]
    rfl

end Reentry

end Market

/-- An order that rests after a run, of orders with no less than nothing filled, comes to
rest on an empty market of the same listing as it is. Only a market buy that has bought
at least as many units as it has money to spend is refused there. -/
theorem resting_order_readmitted {listing : Listing} {actions : List Action} {history : History}
    {market : Market} (run : Market.replay listing actions = .ok (history, market))
    (fresh : ∀ order ∈ Action.orders actions, 0 ≤ order.filledAmount) {order : Order}
    (resting : order ∈ market.book.orders) (now : Instant) :
    (¬ (order.isMarketBuy = true ∧ order.amount ≤ order.filledAmount) →
        Market.Readmits listing now order) ∧
      (order.isMarketBuy = true → order.amount ≤ order.filledAmount →
        (Market.ofListing listing).resume.trade now order =
          .ok (.refused .nothingToFill, (Market.ofListing listing).resume)) := by
  obtain ⟨listed, formed⟩ := Market.wellFormed_of_replay run
  have holds := History.holds_of_replay (Pass.filled_nonneg_keeps listing) run
    fun submitted member _ => Decimal.nonneg_iff.mp (fresh submitted member)
  obtain ⟨side, inside⟩ := OrderBook.mem_orders.mp resting
  obtain ⟨-, rests⟩ := formed.rests inside
  have symbol : market.symbol = listing.name := by rw [Market.symbol, listed]
  rw [symbol] at rests
  obtain ⟨accepted, refused⟩ := Market.reentry_of_rests rests
    (fun limit => Market.price_pos_of_rests formed inside limit) (holds.resting order resting)
  refine ⟨?_, fun _ => refused⟩
  intro ordinary
  apply accepted
  rw [Decimal.lt_iff_value, ← not_le, ← Decimal.le_iff_value]
  intro filled
  cases quantity : order.isMarketBuy with
  | true => exact ordinary ⟨quantity, filled⟩
  | false =>
      -- an order of a quantity that is filled would have been done
      have spent : order.Spent := by simpa [Order.Spent, quantity] using filled
      have done := order.isCompleted_iff.mpr (Or.inr spent)
      rw [rests.live] at done
      cases done

theorem sample_orders_readmitted : ∃ history market,
    Market.replay (.named "coin") History.narrowActions = .ok (history, market) ∧
      market.book.orders.map (fun order => (order.number, order.filledAmount.coefficient)) =
        [("high", 1), ("low", 0)] ∧
      ∀ order ∈ market.book.orders, Market.Readmits (.named "coin") default order := by
  have run : ∃ result, Market.replay (.named "coin") History.narrowActions = .ok result ∧
      result.2.book.orders.map (fun order => (order.number, order.filledAmount.coefficient)) =
        [("high", 1), ("low", 0)] ∧
      ∀ order ∈ result.2.book.orders, order.isMarketBuy = false :=
    ⟨_, rfl, by decide +kernel, by decide +kernel⟩
  obtain ⟨⟨history, market⟩, ran, records, quantities⟩ := run
  refine ⟨history, market, ran, records, ?_⟩
  intro order member
  refine (resting_order_readmitted ran (by decide +kernel) member default).1 ?_
  simp [quantities order member]

/-- A market buy for 2 buys 3 units at 0.5 and waits with 0.5 to spend, but an empty
market takes it for one with nothing to fill. -/
theorem waiting_buy_not_readmitted : ∃ history market,
    Market.replay (.named "coin")
        (History.buyActions ["ask"] (.ofParts 5 1) (.ofParts 3 0) (.ofParts 2 0)) =
      .ok (history, market) ∧
      (∀ order ∈ Action.orders
        (History.buyActions ["ask"] (.ofParts 5 1) (.ofParts 3 0) (.ofParts 2 0)),
          order.filledAmount = 0 ∧ order.filledMoney = 0) ∧
      ∃ order ∈ market.book.orders, ¬ Market.Readmits (.named "coin") default order := by
  have run : ∃ history market order,
      Market.replay (.named "coin")
          (History.buyActions ["ask"] (.ofParts 5 1) (.ofParts 3 0) (.ofParts 2 0)) =
        .ok (history, market) ∧ market.book.orders = [order] ∧
      (Market.ofListing (.named "coin")).resume.trade default order =
        .ok (.refused .nothingToFill, (Market.ofListing (.named "coin")).resume) :=
    ⟨_, _, _, rfl, rfl, rfl⟩
  obtain ⟨history, market, order, ran, resting, refused⟩ := run
  refine ⟨history, market, ran, by decide +kernel, order, resting ▸ List.mem_singleton_self _, ?_⟩
  rintro ⟨report, later, processed, -⟩
  rw [refused] at processed
  cases processed

end SpotExchange
