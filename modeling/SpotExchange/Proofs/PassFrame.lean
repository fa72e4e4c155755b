import SpotExchange.Proofs.History

/-!
The frame of a pass: what it leaves alone. On the other side of the book an order
that no trade names stands where it stood and as it stood, and one that is named keeps
its terms and its turn, or is done and gone. On its own side an incoming order only
joins those that came before it, and the market around the book stays.
-/

namespace SpotExchange

namespace OrderQueue

/-- What becomes of the orders of a queue in a pass with these trades and these reports,
each of them in its turn: an order is spared, or a trade names it and it stays with
its terms, or a trade names it and it is done and gone. -/
inductive Framed (trades : List Trade) (completed : List Order) : OrderQueue → OrderQueue → Prop
  | nil : Framed trades completed [] []
  | spared {order : Order} {before after : OrderQueue}
      (others : Framed trades completed before after) :
      Framed trades completed (order :: before) (order :: after)
  | filled {trade : Trade} {order record : Order} {before after : OrderQueue}
      (known : trade ∈ trades) (named : trade.names order.number = true)
      (same : record.terms = order.terms) (others : Framed trades completed before after) :
      Framed trades completed (order :: before) (record :: after)
  | gone {trade : Trade} {order record : Order} {before after : OrderQueue}
      (known : trade ∈ trades) (named : trade.names order.number = true)
      (same : record.terms = order.terms) (reported : record ∈ completed)
      (others : Framed trades completed before after) :
      Framed trades completed (order :: before) after

section Framed
variable {trades trades' : List Trade} {completed completed' : List Order}
  {before middle after : OrderQueue}

theorem Framed.refl (queue : OrderQueue) : Framed trades completed queue queue := by
  induction queue with
  | nil => exact .nil
  | cons order rest ih => exact .spared ih

theorem Framed.mono (framed : Framed trades completed before after) (dealt : trades ⊆ trades')
    (reports : completed ⊆ completed') : Framed trades' completed' before after := by
  induction framed with
  | nil => exact .nil
  | spared _ ih => exact .spared ih
  | filled known named same _ ih => exact .filled (dealt known) named same ih
  | gone known named same reported _ ih =>
      exact .gone (dealt known) named same (reports reported) ih

theorem Framed.append {near far near' far' : OrderQueue}
    (first : Framed trades completed near near') (last : Framed trades completed far far') :
    Framed trades completed (near ++ far) (near' ++ far') := by
  induction first with
  | nil => exact last
  | spared _ ih => exact .spared ih
  | filled known named same _ ih => exact .filled known named same ih
  | gone known named same reported _ ih => exact .gone known named same reported ih

theorem Framed.trans (first : Framed trades completed before middle)
    (second : Framed trades completed middle after) : Framed trades completed before after := by
  induction first generalizing after with
  | nil => exact second
  | spared _ ih =>
      cases second with
      | spared others => exact .spared (ih others)
      | filled known named same others => exact .filled known named same (ih others)
      | gone known named same reported others => exact .gone known named same reported (ih others)
  | filled known named same _ ih =>
      -- the first trade that names the order tells what became of it
      cases second with
      | spared others => exact .filled known named same (ih others)
      | filled _ _ again others => exact .filled known named (again.trans same) (ih others)
      | gone _ _ again reported others =>
          exact .gone known named (again.trans same) reported (ih others)
  | gone known named same reported _ ih => exact .gone known named same reported (ih second)

theorem Framed.separate (framed : Framed trades completed before after)
    (waiting : ∀ order ∈ before, order.isCompleted = false)
    (reports : completed ⊆ completed') (told : (separate after).1 ⊆ completed') :
    Framed trades completed' before (separate after).2 := by
  simp only [OrderQueue.separate] at told ⊢
  induction framed with
  | nil => exact .nil
  | @spared order before after _ ih =>
      obtain ⟨first, others⟩ := List.forall_mem_cons.mp waiting
      simp only [List.filter_cons, first, Bool.false_eq_true, ↓reduceIte, Bool.not_false] at told ⊢
      exact .spared (ih others told)
  | @filled trade order record before after known named same _ ih =>
      have others := (List.forall_mem_cons.mp waiting).2
      cases done : record.isCompleted with
      | true =>
          simp only [List.filter_cons, done, ↓reduceIte, Bool.not_true, Bool.false_eq_true,
            List.cons_subset] at told ⊢
          exact .gone known named same told.1 (ih others told.2)
      | false =>
          simp only [List.filter_cons, done, Bool.false_eq_true, ↓reduceIte, Bool.not_false]
            at told ⊢
          exact .filled known named same (ih others told)
  | gone known named same reported _ ih =>
      exact .gone known named same (reports reported) (ih (List.forall_mem_cons.mp waiting).2 told)

theorem Framed.eq_of_no_trades (framed : Framed [] completed before after) : after = before := by
  induction framed with
  | nil => rfl
  | spared _ ih => rw [ih]
  | filled known => cases known
  | gone known => cases known

end Framed

end OrderQueue

namespace Ladder

/-- What becomes of the levels of a ladder: each keeps its place and its price, and goes
when all of its orders have gone. -/
inductive Framed (trades : List Trade) (completed : List Order) : Ladder → Ladder → Prop
  | nil : Framed trades completed [] []
  | level {level : PriceLevel} {orders : OrderQueue} {before after : Ladder}
      (own : OrderQueue.Framed trades completed level.orders orders)
      (others : Framed trades completed before after) :
      Framed trades completed (level :: before) (keep level orders after)

section Framed
variable {trades trades' : List Trade} {completed completed' : List Order}
  {symbol : String} {side : Side} {before middle after : Ladder}

theorem keep_orders {level : PriceLevel} (occupied : level.orders ≠ []) (rest : Ladder) :
    keep level level.orders rest = level :: rest := by
  rw [keep, if_neg (by simpa using occupied)]

theorem Framed.refl {ladder : Ladder} (occupied : ∀ level ∈ ladder, level.orders ≠ []) :
    Framed trades completed ladder ladder := by
  induction ladder with
  | nil => exact .nil
  | cons level rest ih =>
      obtain ⟨first, others⟩ := List.forall_mem_cons.mp occupied
      have framed := Framed.level (.refl level.orders) (ih others)
      rwa [keep_orders first] at framed

theorem Framed.mono (framed : Framed trades completed before after) (dealt : trades ⊆ trades')
    (reports : completed ⊆ completed') : Framed trades' completed' before after := by
  induction framed with
  | nil => exact .nil
  | level own _ ih => exact .level (own.mono dealt reports) ih

theorem keep_append (level : PriceLevel) (orders : OrderQueue) (near far : Ladder) :
    keep level orders near ++ far = keep level orders (near ++ far) := by
  unfold keep
  split <;> rfl

theorem Framed.append {near far near' far' : Ladder} (first : Framed trades completed near near')
    (last : Framed trades completed far far') :
    Framed trades completed (near ++ far) (near' ++ far') := by
  induction first with
  | nil => exact last
  | level own _ ih =>
      rw [keep_append]
      exact .level own ih

theorem Framed.trans (first : Framed trades completed before middle)
    (second : Framed trades completed middle after) : Framed trades completed before after := by
  induction first generalizing after with
  | nil => exact second
  | @level level orders before left own _ ih =>
      cases orders with
      | nil => exact .level own (ih second)
      | cons order rest =>
          cases second with
          | level again others => exact .level (own.trans again) (ih others)

theorem Framed.eq_of_no_trades (framed : Framed [] completed before after)
    (occupied : ∀ level ∈ before, level.orders ≠ []) : after = before := by
  induction framed with
  | nil => rfl
  | level own _ ih =>
      obtain ⟨first, others⟩ := List.forall_mem_cons.mp occupied
      rw [own.eq_of_no_trades, keep_orders first, ih others]

end Framed

/-- How an order comes to rest on a ladder: as the last one at its price, or on a new
level between those at better and those at worse prices. -/
inductive Joined (side : Side) (order : Order) : Ladder → Ladder → Prop
  | level (near : Ladder) {far : Ladder} {level : PriceLevel}
      (ahead : ∀ other ∈ near, side.better other.price order.price = true)
      (here : level.price ≈ order.price) :
      Joined side order (near ++ level :: far) (near ++ level.append order :: far)
  | fresh (near : Ladder) {far : Ladder}
      (ahead : ∀ other ∈ near, side.better other.price order.price = true)
      (behind : ∀ other ∈ far, side.better order.price other.price = true) :
      Joined side order (near ++ far) (near ++ ⟨order.price, [order]⟩ :: far)

theorem joined_append {side : Side} (order : Order) {ladder : Ladder}
    (sorted : ladder.Pairwise fun near far => side.better near.price far.price = true) :
    Joined side order ladder (ladder.append side order) := by
  induction ladder with
  | nil => exact .fresh [] nofun nofun
  | cons first rest ih =>
      obtain ⟨worse, tail⟩ := List.pairwise_cons.mp sorted
      rw [append]
      split_ifs with same better
      · exact .level [] nofun same
      · refine .fresh [] nofun ?_
        exact List.forall_mem_cons.mpr
          ⟨better, fun level member => Side.better_trans better (worse level member)⟩
      · have ahead := Side.better_of_not same better
        have joined := ih tail
        generalize append side order rest = longer at joined ⊢
        cases joined with
        | @level near far level others here =>
            exact .level (first :: near) (List.forall_mem_cons.mpr ⟨ahead, others⟩) here
        | @fresh near far others behind =>
            exact .fresh (first :: near) (List.forall_mem_cons.mpr ⟨ahead, others⟩) behind

end Ladder

namespace Pass

section Framed
variable {listing : Listing} {now : Instant} {pass met later : Pass}

theorem Cleared.told {makers kept : List Order}
    (cleared : Cleared listing now pass makers later kept) :
    pass.trades.toList ⊆ later.trades.toList ∧ pass.completed.toList ⊆ later.completed.toList := by
  obtain ⟨done, deals, reported, -, -⟩ := cleared
  rw [reported]
  exact ⟨trades_of_dealings deals, List.subset_append_left _ _⟩

theorem framed_of_settle {maker after : Order} {price amount money : Decimal}
    {completed : List Order}
    (settled : pass.settle now maker price amount money = .ok (met, after)) :
    OrderQueue.Framed met.trades.toList completed [maker] [after] :=
  .filled (mem_trades_of_settle settled) ((Trade.names_between _ _ _ _ _ _ _).mpr (Or.inr rfl))
    (Order.terms_fill (settle_eq_ok settled).1) .nil

theorem framed_of_fate {told : Pass} {maker after : Order} {front : OrderQueue}
    (live : pass.taker.isCompleted = false) (waiting : maker.isCompleted = false)
    (limited : pass.taker.kind = .limit ∨ maker.kind = .limit)
    (meeting : pass.meet listing now maker = .ok (met, after))
    (fate : after.isCompleted = true ∧ told = met.complete [after] ∧ front = [] ∨
      after.isCompleted = false ∧ told = met ∧ front = [after]) :
    OrderQueue.Framed told.trades.toList told.completed.toList [maker] front := by
  rcases meet_cases live waiting limited meeting with
    ⟨rfl, rfl, -⟩ | ⟨_, _, _, -, -, -, settled⟩
  · rcases fate with ⟨done, -, -⟩ | ⟨-, rfl, rfl⟩
    · exact absurd done (Bool.eq_false_iff.mp waiting)
    · exact .refl _
  · rcases fate with ⟨-, rfl, rfl⟩ | ⟨-, rfl, rfl⟩
    · have known := mem_trades_of_settle settled
      exact .gone known ((Trade.names_between _ _ _ _ _ _ _).mpr (Or.inr rfl))
        (Order.terms_fill (settle_eq_ok settled).1) (by simp [complete]) .nil
    · exact framed_of_settle settled

theorem sweepQueue_framed {queue kept : OrderQueue} (live : pass.taker.isCompleted = false)
    (waiting : ∀ order ∈ queue, order.isCompleted = false)
    (limited : ∀ order ∈ queue, pass.taker.kind = .limit ∨ order.kind = .limit)
    (walk : pass.sweepQueue listing now queue = .ok (later, kept)) :
    OrderQueue.Framed later.trades.toList later.completed.toList queue kept := by
  induction queue generalizing pass later kept with
  | nil =>
      cases walk
      exact .nil
  | cons maker rest ih =>
      obtain ⟨first, others⟩ := List.forall_mem_cons.mp waiting
      obtain ⟨first_limited, others_limited⟩ := List.forall_mem_cons.mp limited
      obtain ⟨met, after, told, front, meeting, fate, tail⟩ := sweepQueue_cons walk
      have near := framed_of_fate live first first_limited meeting fate
      rcases tail with ⟨-, rfl, rfl⟩ | ⟨more, left, further, rfl⟩
      · exact near.append (.refl rest)
      · obtain ⟨⟨_, steps, -, -, -⟩, -⟩ := cleared_of_fate live first first_limited meeting fate
        rw [← Order.kind_of_terms (dealings_terms steps).1] at others_limited
        obtain ⟨dealt, reports⟩ := (sweepQueue_cleared more others others_limited further).1.told
        exact (near.mono dealt reports).append (ih more others others_limited further)

theorem allotQueue_framed {queue others : OrderQueue} {total price : Decimal}
    (waiting : ∀ order ∈ queue, order.isCompleted = false)
    (placed : ∀ order ∈ queue, order.kind = .limit ∧ order.price ≈ price) (priced : 0 < price)
    (walk : pass.allotQueue listing now total price queue = .ok (later, others)) :
    OrderQueue.Framed later.trades.toList [] queue others := by
  induction queue generalizing pass later others with
  | nil =>
      cases walk
      exact .nil
  | cons maker rest ih =>
      rw [allotQueue] at walk
      split_ifs at walk with stop
      · cases walk
        exact .refl _
      simp only [bind_eq_ok, return_eq_ok] at walk
      obtain ⟨⟨met, after⟩, allotted, ⟨last, left⟩, further, equal⟩ := walk
      cases equal
      obtain ⟨first, tail⟩ := List.forall_mem_cons.mp waiting
      obtain ⟨⟨limit, near⟩, behind⟩ := List.forall_mem_cons.mp placed
      have own : OrderQueue.Framed met.trades.toList [] [maker] [after] := by
        rcases allot_cases (Bool.eq_false_iff.mpr stop) first limit near priced allotted with
          ⟨rfl, rfl⟩ | ⟨_, _, -, settled⟩
        · exact .refl _
        · exact framed_of_settle settled
      have dealt := trades_of_dealings (allotQueue_dealings tail behind priced further).1
      exact (own.mono dealt (List.Subset.refl _)).append (ih tail behind further)

theorem sweepLadder_framed {limit : Option Decimal} {symbol : String} {side : Side}
    {ladder left : Ladder} (live : pass.taker.isCompleted = false)
    (formed : ladder.WellFormed symbol side)
    (walk : pass.sweepLadder listing now limit ladder = .ok (later, left)) :
    Ladder.Framed later.trades.toList later.completed.toList ladder left := by
  induction ladder generalizing pass later left with
  | nil =>
      cases walk
      exact .nil
  | cons level rest ih =>
      rcases sweepLadder_cons walk with ⟨-, rfl, rfl⟩ | ⟨-, met, orders, queue, tail⟩
      · exact .refl formed.occupied
      · obtain ⟨waiting, placed⟩ := formed.first
        have own := sweepQueue_framed live waiting
          (fun order member => Or.inr (placed order member).1) queue
        rcases tail with ⟨-, rfl, rfl⟩ | ⟨rfl, more, further⟩
        · exact .level own (.refl formed.tail.occupied)
        · obtain ⟨dealt, reports⟩ := (sweepLadder_swept more formed.tail further).cleared.told
          exact .level (own.mono dealt reports) (ih more formed.tail further)

theorem allotLadder_framed {total : Decimal} {symbol : String} {side : Side}
    {ladder left : Ladder} (formed : ladder.WellFormed symbol side)
    (walk : pass.allotLadder listing now total ladder = .ok (later, left)) :
    Ladder.Framed later.trades.toList later.completed.toList ladder left := by
  induction ladder generalizing pass later left with
  | nil =>
      cases walk
      exact .nil
  | cons level rest ih =>
      simp only [allotLadder, bind_eq_ok] at walk
      obtain ⟨⟨given, orders⟩, queue, tail⟩ := walk
      obtain ⟨waiting, placed⟩ := formed.first
      have allotted := allotQueue_framed waiting placed
        (formed.price_pos level List.mem_cons_self) queue
      have own : OrderQueue.Framed given.trades.toList
          (given.complete (OrderQueue.separate orders).1).completed.toList level.orders
          (OrderQueue.separate orders).2 :=
        allotted.separate waiting (List.nil_subset _) (by simp [complete])
      split_ifs at tail with stop
      · cases tail
        exact .level own (.refl formed.tail.occupied)
      · obtain ⟨⟨last, others⟩, further, equal⟩ := (bind_eq_ok _ _ _).mp tail
        cases equal
        obtain ⟨dealt, reports⟩ := (allotLadder_swept formed.tail further).cleared.told
        exact .level (own.mono dealt reports) (ih formed.tail further)

theorem apportion_framed {symbol : String} {ladder left : Ladder}
    (formed : ladder.WellFormed symbol pass.taker.side.opposite)
    (shared : pass.apportion listing now ladder = .ok (later, left)) :
    Ladder.Framed later.trades.toList later.completed.toList ladder left := by
  simp only [apportion, bind_eq_ok] at shared
  obtain ⟨totals, -, total, -, rest⟩ := shared
  split_ifs at rest with nothing
  · cases rest
    exact .refl formed.occupied
  · obtain ⟨⟨last, others⟩, walk, equal⟩ := (bind_eq_ok _ _ _).mp rest
    cases equal
    obtain ⟨near, far⟩ := formed.divide pass.taker.side pass.taker.price
    have whole := (allotLadder_framed near walk).append (.refl far.occupied)
    rwa [Ladder.divide_append pass.taker.price formed.sorted] at whole

/-- A pass, as it is now, tells what became of the orders of the other side. -/
structure Frames (pass : Pass) (side : Side) (before after : OrderBook) : Prop where
  ladder : Ladder.Framed pass.trades.toList pass.completed.toList
    (before.ladder side.opposite) (after.ladder side.opposite)
  queue : OrderQueue.Framed pass.trades.toList pass.completed.toList
    (before.queue side.opposite) (after.queue side.opposite)

theorem Frames.idle {symbol : String} {book : OrderBook} (pass : Pass) (side : Side)
    (formed : book.WellFormed symbol) : pass.Frames side book book where
  ladder := .refl (formed.ladders side.opposite).occupied
  queue := .refl _

theorem Frames.trans {side : Side} {first second third : OrderBook}
    (earlier : pass.Frames side first second) (told : pass.trades.toList ⊆ later.trades.toList ∧
      pass.completed.toList ⊆ later.completed.toList)
    (after : later.Frames side second third) : later.Frames side first third where
  ladder := (earlier.ladder.mono told.1 told.2).trans after.ladder
  queue := (earlier.queue.mono told.1 told.2).trans after.queue

theorem Frames.ofLadder {side : Side} {book : OrderBook} {ladder : Ladder}
    (framed : Ladder.Framed pass.trades.toList pass.completed.toList
      (book.ladder side.opposite) ladder) :
    pass.Frames side book (book.setLadder side.opposite ladder) where
  ladder := by rwa [OrderBook.ladder_setLadder]
  queue := .refl _

theorem Frames.ofQueue {symbol : String} {side : Side} {book : OrderBook} {queue : OrderQueue}
    (formed : book.WellFormed symbol)
    (framed : OrderQueue.Framed pass.trades.toList pass.completed.toList
      (book.queue side.opposite) queue) :
    pass.Frames side book (book.setQueue side.opposite queue) where
  ladder := .refl (formed.ladders side.opposite).occupied
  queue := by rwa [OrderBook.queue_setQueue]

end Framed

end Pass

namespace Market

section Framed
variable {now : Instant} {market after later : Market} {pass last : Pass} {order : Order}

theorem matchApportioned_frames (formed : market.book.WellFormed market.symbol)
    (matched : market.matchApportioned now pass = .ok (last, after)) :
    last.Frames pass.taker.side market.book after.book := by
  unfold matchApportioned at matched
  split_ifs at matched
  · obtain ⟨⟨given, ladder⟩, shared, same⟩ := (bind_eq_ok _ _ _).mp matched
    cases same
    exact .ofLadder (Pass.apportion_framed (formed.ladders _) shared)
  · cases matched
    exact .idle _ _ formed

theorem matchLadder_frames {limit : Option Decimal} (formed : market.book.WellFormed market.symbol)
    (matched : market.matchLadder now limit pass = .ok (last, after)) :
    last.Frames pass.taker.side market.book after.book := by
  unfold matchLadder at matched
  split_ifs at matched with done
  · cases matched
    exact .idle _ _ formed
  · obtain ⟨⟨swept, ladder⟩, walk, same⟩ := (bind_eq_ok _ _ _).mp matched
    cases same
    exact .ofLadder (Pass.sweepLadder_framed (Bool.eq_false_iff.mpr done) (formed.ladders _) walk)

theorem matchQueue_frames (formed : market.book.WellFormed market.symbol)
    (limit : pass.taker.kind = .limit) (matched : market.matchQueue now pass = .ok (last, after)) :
    last.Frames pass.taker.side market.book after.book := by
  unfold matchQueue at matched
  split_ifs at matched with done
  · cases matched
    exact .idle _ _ formed
  · obtain ⟨⟨swept, queue⟩, walk, same⟩ := (bind_eq_ok _ _ _).mp matched
    cases same
    exact .ofQueue formed (Pass.sweepQueue_framed (Bool.eq_false_iff.mpr done)
      (fun resting member => (formed.queues _ resting member).2.2.live)
      (fun _ _ => Or.inl limit) walk)

/-- All matching of a pass frames the other side of the book. -/
theorem matchOrder_frames (formed : market.book.WellFormed market.symbol)
    (matched : market.matchOrder now order = .ok (last, after)) :
    last.Frames order.side market.book after.book := by
  cases kind : order.kind with
  | market =>
      simp only [matchOrder, kind] at matched
      exact matchLadder_frames formed matched
  | limit =>
      obtain ⟨first, shared, second, swept, apportioned, walked, queued, sharing, sweeping,
        queueing⟩ := matchOrder_limit formed kind matched
      have first_terms : first.taker.terms = order.terms := sharing.taker_terms
      have second_terms := sweeping.taker_terms.trans first_terms
      have near := matchApportioned_frames formed apportioned
      have middle := matchLadder_frames sharing.formed_after walked
      have far := matchQueue_frames sweeping.formed_after
        ((Order.kind_of_terms second_terms).trans kind) queued
      rw [Order.side_of_terms first_terms] at middle
      rw [Order.side_of_terms second_terms] at far
      exact (near.trans sweeping.cleared.told middle).trans queueing.cleared.told far

/-- What a pass does to a market: its trades and reports frame the other side of the book,
its own side changes for the rest of the order only, and all else stays. -/
structure Framed (order : Order) (market : Market) (report : Report) (later : Market) : Prop where
  listing : later.listing = market.listing
  halted : later.halted = market.halted
  ready : later.ready = market.ready
  opposing_ladder : Ladder.Framed report.trades report.completed
    (market.book.ladder order.side.opposite) (later.book.ladder order.side.opposite)
  opposing_queue : OrderQueue.Framed report.trades report.completed
    (market.book.queue order.side.opposite) (later.book.queue order.side.opposite)
  own : match report.resting with
    | none => later.book.ladder order.side = market.book.ladder order.side ∧
        later.book.queue order.side = market.book.queue order.side
    | some rest => rest.terms = order.terms ∧
        match order.kind with
        | .limit =>
            Ladder.Joined order.side rest (market.book.ladder order.side)
              (later.book.ladder order.side) ∧
            later.book.queue order.side = market.book.queue order.side
        | .market => later.book.ladder order.side = market.book.ladder order.side ∧
            later.book.queue order.side = market.book.queue order.side ++ [rest]

theorem placed_on_side {symbol : String} {book : OrderBook} (formed : book.WellFormed symbol)
    (order : Order) :
    (book.place order).ladder order.side.opposite = book.ladder order.side.opposite ∧
      (book.place order).queue order.side.opposite = book.queue order.side.opposite ∧
      match order.kind with
      | .limit =>
          Ladder.Joined order.side order (book.ladder order.side)
            ((book.place order).ladder order.side) ∧
          (book.place order).queue order.side = book.queue order.side
      | .market => (book.place order).ladder order.side = book.ladder order.side ∧
          (book.place order).queue order.side = book.queue order.side ++ [order] := by
  unfold OrderBook.place
  cases order.kind with
  | limit =>
      refine ⟨OrderBook.ladder_setLadder_opposite _ _ _, rfl, ?_, rfl⟩
      rw [OrderBook.addLimit, OrderBook.ladder_setLadder]
      exact Ladder.joined_append order (formed.ladders order.side).sorted
  | market =>
      exact ⟨rfl, OrderBook.queue_setQueue_opposite _ _ _, rfl, OrderBook.queue_setQueue _ _ _⟩

theorem framed_of_trade {report : Report} (formed : market.book.WellFormed market.symbol)
    (traded : market.trade now order = .ok (.processed report, later)) :
    Framed order market report later := by
  rcases trade_cases traded with ⟨_, refused, -, -⟩ | ⟨_, pass, after, same, -, matched, ended⟩
  · cases refused
  cases same
  have stage := matchOrder_stage formed matched
  obtain ⟨ladder, queue⟩ := matchOrder_frames formed matched
  obtain ⟨trades, frame, ending⟩ := finish_cases ended
  rw [← trades] at ladder queue
  have terms : pass.taker.terms = order.terms := stage.taker_terms
  have kept : later.listing = market.listing ∧ later.halted = market.halted ∧
      later.ready = market.ready := by
    rw [frame, stage.frame]
    exact ⟨rfl, rfl, rfl⟩
  -- the taker is reported, or it joins the tail of its own side
  rcases ending with ⟨-, completed, resting, book⟩ | ⟨-, completed, resting, book⟩
  · have told : pass.completed.toList ⊆ report.completed := by
      rw [completed]
      exact List.subset_append_left _ _
    refine ⟨kept.1, kept.2.1, kept.2.2, ?_, ?_, ?_⟩
    · rw [book]
      exact ladder.mono (List.Subset.refl _) told
    · rw [book]
      exact queue.mono (List.Subset.refl _) told
    · rw [resting, book]
      exact ⟨stage.own_ladder, stage.own_queue⟩
  · rw [← completed] at ladder queue
    obtain ⟨others, waiting, own⟩ := placed_on_side stage.formed pass.taker
    rw [← book, Order.side_of_terms terms] at others waiting own
    rw [Order.kind_of_terms terms, stage.own_ladder, stage.own_queue] at own
    refine ⟨kept.1, kept.2.1, kept.2.2, others ▸ ladder, waiting ▸ queue, ?_⟩
    rw [resting]
    exact ⟨terms, own⟩

end Framed

end Market

/-- A pass, on whatever market comes of a run, leaves every resting order that none of its
trades names as it stood and where it stood; the orders that trades name keep their terms
and their turn, or are reported as done and gone; what is left of the incoming order
stands last at its price or last in its queue; and a refusal changes nothing. -/
theorem pass_framed {listing : Listing} {actions : List Action} {history : History}
    {market later : Market} {now : Instant} {order : Order} {outcome : Outcome}
    (run : Market.replay listing actions = .ok (history, market))
    (traded : market.trade now order = .ok (outcome, later)) :
    match outcome with
    | .refused _ => later = market
    | .processed report => Market.Framed order market report later := by
  have formed := (Market.wellFormed_of_replay run).2
  cases outcome with
  | refused reason =>
      rcases Market.trade_cases traded with ⟨_, -, -, same⟩ | ⟨_, _, _, processed, -⟩
      · exact same
      · cases processed
  | processed report => exact Market.framed_of_trade formed traded

theorem sample_pass_framed : ∃ history market report later rest,
    Market.replay (.named "coin") History.sampleActions = .ok (history, market) ∧
      market.trade default History.sampleBid = .ok (.processed report, later) ∧
      report.trades.map Trade.sellNumber = ["next"] ∧ report.resting = some rest ∧
      Market.Framed History.sampleBid market report later := by
  obtain ⟨history, market, report, later, rest, run, traded, named, resting⟩ :
      ∃ history market report later rest,
        Market.replay (.named "coin") History.sampleActions = .ok (history, market) ∧
        market.trade default History.sampleBid = .ok (.processed report, later) ∧
        report.trades.map Trade.sellNumber = ["next"] ∧ report.resting = some rest :=
    ⟨_, _, _, _, _, rfl, rfl, by decide +kernel, rfl⟩
  exact ⟨history, market, report, later, rest, run, traded, named, resting,
    pass_framed run traded⟩

end SpotExchange
