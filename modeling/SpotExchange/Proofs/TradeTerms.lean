import SpotExchange.Proofs.ExactQuantity

/-!
What stands in a book, and on what terms it trades. After any run every order rests
where its kind, side and price put it. And every trade is between a buyer and a seller,
for a positive amount, at the limit of the one who stood there first, or of the other
one where that has none, and beyond the limit of neither.
-/

namespace SpotExchange

/-- After any run no two levels of a ladder have one price, and each holds limit orders
of its side at its price, which is positive; a queue holds market orders of its side.
Every resting order is one for this symbol that asks for something and is not done. -/
theorem resting_orders_in_place {listing : Listing} {actions : List Action} {history : History}
    {market : Market} (run : Market.replay listing actions = .ok (history, market)) :
    (∀ side,
      ((market.book.ladder side).Pairwise fun near far => side.better near.price far.price = true) ∧
      ∀ level ∈ market.book.ladder side, level.orders ≠ [] ∧ 0 < level.price ∧
        ∀ order ∈ level.orders,
          order.kind = .limit ∧ order.side = side ∧ order.price ≈ level.price) ∧
    (∀ side, ∀ order ∈ market.book.queue side, order.kind = .market ∧ order.side = side) ∧
    ∀ order ∈ market.book.orders,
      order.symbol = listing.name ∧ 0 < order.amount ∧ order.isCompleted = false := by
  obtain ⟨same, formed⟩ := Market.wellFormed_of_replay run
  refine ⟨?_, ?_, ?_⟩
  · intro side
    have ladder := formed.ladders side
    refine ⟨ladder.sorted, ?_⟩
    intro level member
    exact ⟨ladder.occupied level member, ladder.price_pos level member, ladder.placed level member⟩
  · intro side order member
    obtain ⟨kind, own, -⟩ := formed.queues side order member
    exact ⟨kind, own⟩
  · intro order member
    obtain ⟨side, inside⟩ := OrderBook.mem_orders.mp member
    obtain ⟨-, rests⟩ := formed.rests inside
    rw [← same]
    exact ⟨rests.symbol_eq, rests.amount_pos, rests.live⟩

def History.mixedActions : List Action :=
  [.trade default (.market "waiting" 1 "coin" .sell (.ofParts 4 0) default),
    .trade default (.limit "ask" 2 "coin" .sell (.ofParts 99 0) (.ofParts 3 0) default)]

theorem sample_orders_in_place : ∃ history market,
    Market.replay (.named "coin") History.mixedActions = .ok (history, market) ∧
      (market.book.queue .sell).map Order.number = ["waiting"] ∧
      (∀ order ∈ market.book.queue .sell, order.kind = .market ∧ order.side = .sell) ∧
      (market.book.ladder .sell).map (fun level => level.orders.map Order.number) = [["ask"]] ∧
      ∀ level ∈ market.book.ladder .sell, ∀ order ∈ level.orders, order.price ≈ level.price := by
  have run : ∃ result, Market.replay (.named "coin") History.mixedActions = .ok result ∧
      (result.2.book.queue .sell).map Order.number = ["waiting"] ∧
      (result.2.book.ladder .sell).map (fun level => level.orders.map Order.number) = [["ask"]] :=
    ⟨_, rfl, by decide +kernel, by decide +kernel⟩
  obtain ⟨⟨history, market⟩, ran, waiting, standing⟩ := run
  obtain ⟨ladders, queues, -⟩ := resting_orders_in_place ran
  refine ⟨history, market, ran, waiting, queues .sell, standing, ?_⟩
  intro level member order inside
  exact (((ladders .sell).2 level member).2.2 order inside).2.2

namespace Order

/-- Whether two orders that both have a limit can meet in a price. -/
def Crosses (taker maker : Order) : Prop :=
  taker.kind = .limit → maker.kind = .limit → taker.side.crosses taker.price maker.price = true

theorem Crosses.of_terms {taker maker taker' maker' : Order} (crosses : taker.Crosses maker)
    (takers : taker.terms = taker'.terms) (makers : maker.terms = maker'.terms) :
    taker'.Crosses maker' := by
  unfold Crosses at *
  rwa [← kind_of_terms takers, ← kind_of_terms makers, ← side_of_terms takers,
    ← price_of_terms takers, ← price_of_terms makers]

end Order

namespace Trade

/-- A trade on the terms of a taker and a maker: at the limit of the maker, or of the
taker where the maker has none, and within that of the other one. -/
structure Agreed (taker maker : Order) (trade : Trade) : Prop where
  between : ∃ now, trade = Trade.between taker maker trade.price trade.amount trade.money now
  amount_pos : 0 < trade.amount
  price_pos : 0 < trade.price
  limited : taker.kind = .limit ∨ maker.kind = .limit
  price_fair : trade.price ≈ Pass.dealPrice taker maker
  crosses : taker.Crosses maker

theorem Agreed.of_terms {taker maker taker' maker' : Order} {trade : Trade}
    (agreed : Agreed taker maker trade) (takers : taker.terms = taker'.terms)
    (makers : maker.terms = maker'.terms) : Agreed taker' maker' trade where
  between := by
    obtain ⟨now, same⟩ := agreed.between
    exact ⟨now, same.trans (Trade.between_of_terms _ _ _ _ takers makers)⟩
  amount_pos := agreed.amount_pos
  price_pos := agreed.price_pos
  limited := by
    rw [← Order.kind_of_terms takers, ← Order.kind_of_terms makers]
    exact agreed.limited
  price_fair := by
    have price : Pass.dealPrice taker' maker' = Pass.dealPrice taker maker := by
      rw [Pass.dealPrice, Pass.dealPrice, Order.kind_of_terms makers, Order.price_of_terms makers,
        Order.price_of_terms takers]
    rw [price]
    exact agreed.price_fair
  crosses := agreed.crosses.of_terms takers makers

/-- A trade between these two that goes beyond the limit of neither. -/
structure Suits (buyer seller : Order) (trade : Trade) : Prop where
  buys : buyer.side = .buy
  sells : seller.side = .sell
  buyer_named : trade.buyNumber = buyer.number ∧ trade.buyUserId = buyer.userId
  seller_named : trade.sellNumber = seller.number ∧ trade.sellUserId = seller.userId
  at_most : buyer.kind = .limit → trade.price ≤ buyer.price
  at_least : seller.kind = .limit → seller.price ≤ trade.price

/-- The limit of each party is kept: that of the one who sets the price, and that of
the other one because the two cross. -/
theorem Agreed.within {taker maker : Order} {trade : Trade} (agreed : Agreed taker maker trade) :
    (taker.kind = .limit → taker.side.crosses taker.price trade.price = true) ∧
      (maker.kind = .limit → trade.price ≈ maker.price) := by
  have fair := agreed.price_fair
  cases kind : maker.kind with
  | limit =>
      rw [Pass.dealPrice, kind] at fair
      refine ⟨?_, fun _ => fair⟩
      intro limit
      rw [Side.crosses_congr fair]
      exact agreed.crosses limit kind
  | market =>
      rw [Pass.dealPrice, kind] at fair
      constructor
      · intro _
        rw [Decimal.equiv_iff_value] at fair
        rw [Side.crosses_iff_value, fair]
        cases taker.side <;> exact le_rfl
      · intro limit
        cases limit

theorem Agreed.suits {taker maker : Order} {trade : Trade} (agreed : Agreed taker maker trade)
    (opposite : maker.side = taker.side.opposite) :
    match taker.side with
    | .buy => Suits taker maker trade
    | .sell => Suits maker taker trade := by
  obtain ⟨now, same⟩ := agreed.between
  obtain ⟨own, other⟩ := agreed.within
  simp only [Decimal.equiv_iff_value] at other
  cases side : taker.side with
  | buy =>
      rw [side] at own opposite
      rw [same]
      refine ⟨side, opposite, ?_, ?_, ?_, ?_⟩
      · simp [Trade.between, side]
      · simp [Trade.between, side]
      · intro limit
        exact (Decimal.le_iff_value _ _).mpr ((Side.crosses_iff_value _ _ _).mp (own limit))
      · intro limit
        exact (Decimal.le_iff_value _ _).mpr (other limit).ge
  | sell =>
      rw [side] at own opposite
      rw [same]
      refine ⟨opposite, side, ?_, ?_, ?_, ?_⟩
      · simp [Trade.between, side]
      · simp [Trade.between, side]
      · intro limit
        exact (Decimal.le_iff_value _ _).mpr (other limit).le
      · intro limit
        exact (Decimal.le_iff_value _ _).mpr ((Side.crosses_iff_value _ _ _).mp (own limit))

end Trade

namespace Pass

/-- Every trade that was added between two states of a pass is one that the taker and
one of these makers agree on. -/
def Agrees (pass : Pass) (makers : List Order) (later : Pass) : Prop :=
  ∀ trade ∈ later.trades.toList, trade ∈ pass.trades.toList ∨
    ∃ maker ∈ makers, Trade.Agreed pass.taker maker trade

section Walks
variable {listing : Listing} {now : Instant} {pass middle later : Pass}
  {makers others : List Order}

theorem Agrees.idle (pass : Pass) (makers : List Order) : Agrees pass makers pass :=
  fun _ => Or.inl

theorem Agrees.of_known (agrees : Agrees pass makers later)
    (known : ∀ maker ∈ makers, ∃ origin ∈ others, origin.terms = maker.terms) :
    Agrees pass others later := by
  intro trade member
  rcases agrees trade member with old | ⟨maker, inside, agreed⟩
  · exact Or.inl old
  · obtain ⟨origin, there, same⟩ := known maker inside
    exact Or.inr ⟨origin, there, agreed.of_terms rfl same.symm⟩

theorem Agrees.among (agrees : Agrees pass makers later) (among : makers ⊆ others) :
    Agrees pass others later :=
  agrees.of_known fun maker member => ⟨maker, among member, rfl⟩

theorem Agrees.trans (first : Agrees pass makers middle) (second : Agrees middle makers later)
    (same : middle.taker.terms = pass.taker.terms) : Agrees pass makers later := by
  intro trade member
  rcases second trade member with old | ⟨maker, inside, agreed⟩
  · exact first trade old
  · exact Or.inr ⟨maker, inside, agreed.of_terms same rfl⟩

/-- What one deal adds is agreed with the maker as it stood at the start. -/
theorem agrees_of_dealings {left : Multiset Order}
    (steps : Dealings listing now pass makers later left)
    (crosses : ∀ maker ∈ makers, pass.taker.Crosses maker) : Agrees pass makers later := by
  induction steps with
  | refl => exact .idle pass makers
  | report _ _ ih => exact ih
  | @deal middle last rest maker filled price amount money steps terms settled ih =>
      obtain ⟨-, -, pushed, -, -⟩ := settle_eq_ok settled
      obtain ⟨takers, records⟩ := dealings_terms steps
      have known := Multiset.mem_map_of_mem Order.terms (Multiset.mem_cons_self maker rest)
      rw [records] at known
      obtain ⟨origin, inside, same⟩ := Multiset.mem_map.mp known
      intro trade member
      rw [pushed, Array.toList_push] at member
      rcases List.mem_append.mp member with old | new
      · exact ih trade old
      · obtain rfl := List.mem_singleton.mp new
        have agreed : Trade.Agreed middle.taker maker
            (Trade.between middle.taker maker price amount money now) :=
          { between := ⟨now, rfl⟩
            amount_pos := terms.amount_pos
            price_pos := terms.price_pos
            limited := terms.limited
            price_fair := terms.price_fair
            crosses := (crosses origin inside).of_terms takers.symm same }
        exact Or.inr ⟨origin, inside, agreed.of_terms takers same.symm⟩

theorem agrees_of_cleared {kept : List Order} (cleared : Cleared listing now pass makers later kept)
    (crosses : ∀ maker ∈ makers, pass.taker.Crosses maker) : Agrees pass makers later := by
  obtain ⟨_, steps, -, -, -⟩ := cleared
  exact agrees_of_dealings steps crosses

theorem sweepLadder_agrees {limit : Option Decimal} {symbol : String} {side : Side}
    {ladder left : Ladder} (live : pass.taker.isCompleted = false)
    (formed : ladder.WellFormed symbol side)
    (crosses : ∀ level ∈ ladder, reaches pass.taker limit level = true →
      ∀ maker ∈ level.orders, pass.taker.Crosses maker)
    (walk : pass.sweepLadder listing now limit ladder = .ok (later, left)) :
    Agrees pass ladder.orders later := by
  induction ladder generalizing pass left with
  | nil =>
      cases walk
      exact .idle _ _
  | cons level rest ih =>
      rw [Ladder.orders_cons]
      rcases sweepLadder_cons walk with ⟨-, rfl, -⟩ | ⟨within, met, orders, queue, tail⟩
      · exact .idle later _
      · obtain ⟨waiting, placed⟩ := formed.first
        have limited : ∀ order ∈ level.orders,
            pass.taker.kind = .limit ∨ order.kind = .limit := fun order member =>
          Or.inr (placed order member).1
        obtain ⟨cleared, -⟩ := sweepQueue_cleared live waiting limited queue
        have near := (agrees_of_cleared cleared (crosses level List.mem_cons_self within)).among
          (List.subset_append_left _ (Ladder.orders rest))
        rcases tail with ⟨-, rfl, -⟩ | ⟨-, more, further⟩
        · exact near
        · obtain ⟨_, steps, -, -, -⟩ := cleared
          have takers := (dealings_terms steps).1
          -- the limit of the taker reaches no further later on
          have far := ih more formed.tail (fun other member reached maker inside =>
            (crosses other (List.mem_cons_of_mem _ member)
              (reaches_of_terms takers limit other ▸ reached) maker inside).of_terms
                takers.symm rfl) further
          exact near.trans (far.among (List.subset_append_right _ _)) takers

theorem apportion_agrees {symbol : String} {ladder left : Ladder}
    (formed : ladder.WellFormed symbol pass.taker.side.opposite)
    (shared : pass.apportion listing now ladder = .ok (later, left)) :
    Agrees pass ladder.orders later := by
  simp only [apportion, bind_eq_ok] at shared
  obtain ⟨totals, -, total, -, rest⟩ := shared
  split_ifs at rest with nothing
  · cases rest
    exact .idle _ _
  · obtain ⟨⟨last, others⟩, walk, equal⟩ := (bind_eq_ok _ _ _).mp rest
    cases equal
    have near := (formed.divide pass.taker.side pass.taker.price).1
    refine (agrees_of_cleared (allotLadder_swept near walk).cleared ?_).among ?_
    · intro maker member _ _
      obtain ⟨level, known, inside⟩ := Ladder.mem_orders.mp member
      rw [Side.crosses_congr (near.placed level known maker inside).2.2]
      exact (List.mem_filter.mp known).2
    · intro maker member
      obtain ⟨level, known, inside⟩ := Ladder.mem_orders.mp member
      exact Ladder.mem_orders.mpr ⟨level, (List.mem_filter.mp known).1, inside⟩

end Walks

end Pass

theorem Ladder.Remainder.exists_order {before after : Ladder} (left : Ladder.Remainder before after)
    {order : Order} (member : order ∈ after.orders) :
    ∃ earlier ∈ before.orders, earlier.terms = order.terms := by
  obtain ⟨level, known, inside⟩ := Ladder.mem_orders.mp member
  obtain ⟨origin, there, -, kept⟩ := left.exists_level known
  obtain ⟨earlier, stood, same⟩ := kept.exists_terms inside
  exact ⟨earlier, Ladder.mem_orders.mpr ⟨origin, there, stood⟩, same⟩

namespace Market

section Matching
variable {now : Instant} {side : Side} {market after : Market} {pass later : Pass}
  (formed : market.book.WellFormed market.symbol)
include formed

theorem matchApportioned_agrees (matched : market.matchApportioned now pass = .ok (later, after)) :
    pass.Agrees (market.book.ladder pass.taker.side.opposite).orders later := by
  unfold matchApportioned at matched
  split_ifs at matched
  · obtain ⟨⟨given, ladder⟩, shared, same⟩ := (bind_eq_ok _ _ _).mp matched
    cases same
    exact Pass.apportion_agrees (formed.ladders _) shared
  · cases matched
    exact .idle _ _

theorem matchLadder_agrees {limit : Option Decimal}
    (own : pass.taker.kind = .limit → limit = some pass.taker.price)
    (matched : market.matchLadder now limit pass = .ok (later, after)) :
    pass.Agrees (market.book.ladder pass.taker.side.opposite).orders later := by
  unfold matchLadder at matched
  split_ifs at matched with done
  · cases matched
    exact .idle _ _
  · obtain ⟨⟨swept, ladder⟩, walk, same⟩ := (bind_eq_ok _ _ _).mp matched
    cases same
    refine Pass.sweepLadder_agrees (Bool.eq_false_iff.mpr done) (formed.ladders _) ?_ walk
    intro level member reached maker inside kind _
    rw [own kind] at reached
    rw [Side.crosses_congr ((formed.ladders _).placed level member maker inside).2.2]
    exact reached

theorem matchQueue_agrees (limit : pass.taker.kind = .limit)
    (matched : market.matchQueue now pass = .ok (later, after)) :
    pass.Agrees (market.book.queue pass.taker.side.opposite) later := by
  unfold matchQueue at matched
  split_ifs at matched with done
  · cases matched
    exact .idle _ _
  · obtain ⟨⟨swept, queue⟩, walk, same⟩ := (bind_eq_ok _ _ _).mp matched
    cases same
    have waiting := formed.queues pass.taker.side.opposite
    obtain ⟨cleared, -⟩ := Pass.sweepQueue_cleared (Bool.eq_false_iff.mpr done)
      (fun order member => (waiting order member).2.2.live) (fun _ _ => Or.inl limit) walk
    refine Pass.agrees_of_cleared cleared ?_
    intro maker member _ kind
    rw [(waiting maker member).1] at kind
    cases kind

theorem matchOrder_agrees {order : Order}
    (matched : market.matchOrder now order = .ok (later, after)) :
    (Pass.start order).Agrees (market.book.ordersOf order.side.opposite) later := by
  cases kind : order.kind with
  | market =>
      simp only [matchOrder, kind] at matched
      have unlimited : order.kind ≠ .limit := by simp [kind]
      exact (matchLadder_agrees formed (fun limit => absurd limit unlimited) matched).among
        (List.subset_append_left _ _)
  | limit =>
      obtain ⟨first, shared, second, swept, apportioned, walked, queued, sharing, sweeping, -⟩ :=
        matchOrder_limit formed kind matched
      have first_terms : first.taker.terms = order.terms := sharing.taker_terms
      have second_terms := sweeping.taker_terms.trans first_terms
      have sharing_agrees := matchApportioned_agrees formed apportioned
      have walk_agrees := matchLadder_agrees sharing.formed_after
        (fun _ => by rw [Order.price_of_terms first_terms]) walked
      have queue_agrees := matchQueue_agrees sweeping.formed_after
        ((Order.kind_of_terms second_terms).trans kind) queued
      rw [Order.side_of_terms first_terms] at walk_agrees
      rw [Order.side_of_terms second_terms] at queue_agrees
      -- the later stages meet what the earlier ones left
      have walk_known : first.Agrees (market.book.ordersOf order.side.opposite) second := by
        apply walk_agrees.of_known
        intro maker member
        obtain ⟨origin, there, same⟩ := sharing.ladder_left.exists_order member
        exact ⟨origin, List.mem_append_left _ there, same⟩
      have queue_known : second.Agrees (market.book.ordersOf order.side.opposite) later := by
        apply queue_agrees.of_known
        intro maker member
        obtain ⟨origin, there, same⟩ :=
          (sharing.queue_left.trans sweeping.queue_left).exists_terms member
        exact ⟨origin, List.mem_append_right _ there, same⟩
      exact ((sharing_agrees.among (List.subset_append_left _ _)).trans walk_known
        first_terms).trans queue_known second_terms

end Matching

end Market

/-- No trade violates a limit. After any run, every trade of an incoming order is with
an order of the other side of the book, for a positive amount at a positive price, which
is the limit of the resting order, or of the incoming one where that has none. The trade
names the two as its buyer and its seller, and goes beyond the limit of neither. -/
theorem trades_within_limits {listing : Listing} {actions : List Action} {history : History}
    {market later : Market} {now : Instant} {order : Order} {report : Report}
    (run : Market.replay listing actions = .ok (history, market))
    (traded : market.trade now order = .ok (.processed report, later)) :
    ∀ trade ∈ report.trades, 0 < trade.amount ∧ 0 < trade.price ∧
      ∃ maker ∈ market.book.ordersOf order.side.opposite,
        (order.kind = .limit ∨ maker.kind = .limit) ∧
        trade.price ≈ (if maker.kind = .limit then maker.price else order.price) ∧
        match order.side with
        | .buy => Trade.Suits order maker trade
        | .sell => Trade.Suits maker order trade := by
  obtain ⟨-, formed⟩ := Market.wellFormed_of_replay run
  rcases Market.trade_cases traded with
    ⟨_, refused, -, -⟩ | ⟨_, pass, after, told, -, matched, ended⟩
  · cases refused
  cases told
  intro trade member
  rw [(Market.finish_cases ended).1] at member
  obtain ⟨maker, inside, agreed⟩ :=
    (Market.matchOrder_agrees formed matched trade member).resolve_left List.not_mem_nil
  refine ⟨agreed.amount_pos, agreed.price_pos, maker, inside, agreed.limited, ?_,
    agreed.suits (formed.rests inside).1⟩
  have fair : trade.price ≈ Pass.dealPrice order maker := agreed.price_fair
  rw [Pass.dealPrice] at fair
  cases kind : maker.kind with
  | limit => simpa [kind] using fair
  | market => simpa [kind] using fair

theorem sample_trades_within_limits : ∃ history market report later,
    Market.replay (.named "coin") History.mixedActions = .ok (history, market) ∧
      market.trade default History.mixedBid = .ok (.processed report, later) ∧
      report.trades.map (fun trade => (trade.sellNumber, trade.price.coefficient)) =
        [("ask", 99), ("waiting", 100)] ∧
      ∀ trade ∈ report.trades, ∃ maker ∈ market.book.ordersOf .sell,
        Trade.Suits History.mixedBid maker trade := by
  have run : ∃ history market report later,
      Market.replay (.named "coin") History.mixedActions = .ok (history, market) ∧
        market.trade default History.mixedBid = .ok (.processed report, later) ∧
        report.trades.map (fun trade => (trade.sellNumber, trade.price.coefficient)) =
          [("ask", 99), ("waiting", 100)] :=
    ⟨_, _, _, _, rfl, rfl, by decide +kernel⟩
  obtain ⟨history, market, report, later, ran, traded, prices⟩ := run
  refine ⟨history, market, report, later, ran, traded, prices, ?_⟩
  intro trade member
  obtain ⟨-, -, maker, inside, -, -, suits⟩ := trades_within_limits ran traded trade member
  exact ⟨maker, inside, suits⟩

end SpotExchange
