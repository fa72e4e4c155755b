import SpotExchange.Proofs.Dealings
import SpotExchange.Market.Trading

/-!
What one operation does to a market. A refused order changes nothing. Any other
order deals with the other side of the book only; what it leaves there is a
remainder, and it is reported as done or takes its place on its own side. A
cancelled order leaves the book and nothing else moves.
-/

namespace SpotExchange

namespace OrderBook

structure WellFormed (symbol : String) (book : OrderBook) : Prop where
  ladders : ∀ side, (book.ladder side).WellFormed symbol side
  queues : ∀ side, (book.queue side).WellFormed symbol side

def ordersOf (book : OrderBook) (side : Side) : List Order :=
  (book.ladder side).orders ++ book.queue side

def orders (book : OrderBook) : List Order := book.ordersOf .buy ++ book.ordersOf .sell

/-- Lets an order rest in the container of its side and kind. -/
def place (book : OrderBook) (order : Order) : OrderBook :=
  match order.kind with
  | .limit => book.addLimit order
  | .market => book.addMarket order

section Containers
variable (book : OrderBook) (side : Side) (ladder : Ladder) (queue : OrderQueue)

@[simp] theorem ladder_setLadder : (book.setLadder side ladder).ladder side = ladder :=
  BySide.get_set_same _ _ _

@[simp] theorem ladder_setLadder_opposite :
    (book.setLadder side ladder).ladder side.opposite = book.ladder side.opposite :=
  BySide.get_set_opposite _ _ _

@[simp] theorem queue_setLadder (other : Side) :
    (book.setLadder side ladder).queue other = book.queue other := rfl

@[simp] theorem queue_setQueue : (book.setQueue side queue).queue side = queue :=
  BySide.get_set_same _ _ _

@[simp] theorem queue_setQueue_opposite :
    (book.setQueue side queue).queue side.opposite = book.queue side.opposite :=
  BySide.get_set_opposite _ _ _

@[simp] theorem ladder_setQueue (other : Side) :
    (book.setQueue side queue).ladder other = book.ladder other := rfl

theorem coe_orders : (book.orders : Multiset Order) =
    (book.ordersOf side + book.ordersOf side.opposite : Multiset Order) := by
  cases side
  · rfl
  · rw [add_comm]
    rfl

end Containers

theorem forall_side {statement : Side → Prop} (side : Side) (own : statement side)
    (other : statement side.opposite) : ∀ any, statement any := by
  intro any
  cases side <;> cases any <;> assumption

theorem WellFormed.empty (symbol : String) : OrderBook.empty.WellFormed symbol where
  ladders := by
    intro side
    cases side <;> exact ⟨.nil, by simp [OrderBook.empty, ladder, BySide.get],
      by simp [OrderBook.empty, ladder, BySide.get], by simp [OrderBook.empty, ladder, BySide.get],
      by simp [OrderBook.empty, ladder, BySide.get]⟩
  queues := by
    intro side order member
    cases side <;> cases member

theorem WellFormed.rests {symbol : String} {book : OrderBook} (formed : book.WellFormed symbol)
    {side : Side} {order : Order} (member : order ∈ book.ordersOf side) :
    order.side = side ∧ order.Rests symbol := by
  rcases List.mem_append.mp member with limit | market
  · obtain ⟨level, known, inside⟩ := Ladder.mem_orders.mp limit
    exact ⟨((formed.ladders side).placed level known order inside).2.1,
      (formed.ladders side).rests level known order inside⟩
  · obtain ⟨-, own, rests⟩ := formed.queues side order market
    exact ⟨own, rests⟩

theorem mem_orders {book : OrderBook} {order : Order} :
    order ∈ book.orders ↔ ∃ side, order ∈ book.ordersOf side := by
  constructor
  · intro member
    rcases List.mem_append.mp member with buy | sell
    · exact ⟨.buy, buy⟩
    · exact ⟨.sell, sell⟩
  · rintro ⟨side, member⟩
    cases side
    · exact List.mem_append_left _ member
    · exact List.mem_append_right _ member

theorem WellFormed.place {symbol : String} {book : OrderBook} {order : Order}
    (formed : book.WellFormed symbol) (rests : order.Rests symbol)
    (priced : order.kind = .limit → 0 < order.price) : (book.place order).WellFormed symbol := by
  unfold OrderBook.place
  cases kind : order.kind with
  | limit =>
      refine ⟨forall_side order.side ?_ ?_, formed.queues⟩
      · rw [addLimit, ladder_setLadder]
        exact (formed.ladders order.side).append kind rfl (priced kind) rests
      · rw [addLimit, ladder_setLadder_opposite]
        exact formed.ladders order.side.opposite
  | market =>
      refine ⟨formed.ladders, forall_side order.side ?_ ?_⟩
      · rw [addMarket, queue_setQueue]
        intro resting member
        rcases List.mem_append.mp member with earlier | last
        · exact formed.queues order.side resting earlier
        · obtain rfl := List.mem_singleton.mp last
          exact ⟨kind, rfl, rests⟩
      · rw [addMarket, queue_setQueue_opposite]
        exact formed.queues order.side.opposite

theorem coe_orders_place (book : OrderBook) (order : Order) :
    ((book.place order).orders : Multiset Order) = order ::ₘ (book.orders : Multiset Order) := by
  rw [coe_orders _ order.side, coe_orders _ order.side, ← Multiset.cons_add]
  unfold OrderBook.place
  cases order.kind with
  | limit =>
      have same := Multiset.coe_eq_coe.mpr
        (Ladder.orders_append_perm order.side order (book.ladder order.side))
      simp only [addLimit, ordersOf, ladder_setLadder, ladder_setLadder_opposite, queue_setLadder,
        ← Multiset.coe_add, same, ← Multiset.cons_coe, Multiset.cons_add]
  | market =>
      simp only [addMarket, ordersOf, queue_setQueue, queue_setQueue_opposite, ladder_setQueue,
        ← Multiset.coe_add, ← Multiset.singleton_add, Multiset.coe_singleton]
      abel

/-- One order is gone from the book; all others stand as they stood. -/
structure Removes (book : OrderBook) (order : Order) (later : OrderBook) : Prop where
  ladders : ∀ side, Ladder.Remainder (book.ladder side) (later.ladder side)
  queues : ∀ side, OrderQueue.Remainder (book.queue side) (later.queue side)
  orders : (book.orders : Multiset Order) = order ::ₘ (later.orders : Multiset Order)
  formed : ∀ {symbol}, book.WellFormed symbol → later.WellFormed symbol

theorem removeLimit?_removes {book later : OrderBook} {side : Side} {price : Decimal}
    {number : String} {order : Order}
    (found : book.removeLimit? side price number = some (order, later)) :
    order.number = number ∧ book.Removes order later := by
  obtain ⟨⟨taken, left⟩, extracted, same⟩ := Option.map_eq_some_iff.mp found
  cases same
  obtain ⟨number_eq, without⟩ := Ladder.extract?_without extracted
  have perm := without.orders_perm
  have taken_out := Multiset.coe_eq_coe.mpr perm
  refine ⟨number_eq, forall_side side ?_ ?_, fun _ => .refl _, ?_, ?_⟩
  · rw [ladder_setLadder]
    exact without.remainder
  · rw [ladder_setLadder_opposite]
    exact .refl _
  · rw [coe_orders _ side, coe_orders _ side]
    simp only [ordersOf, ladder_setLadder, ladder_setLadder_opposite, queue_setLadder,
      ← Multiset.coe_add, taken_out, ← Multiset.cons_coe, Multiset.cons_add]
  · intro symbol formed
    refine ⟨forall_side side ?_ ?_, formed.queues⟩
    · rw [ladder_setLadder]
      refine (formed.ladders side).remainder without.remainder
        (without.occupied (formed.ladders side).occupied) ?_
      intro resting member
      have known : resting ∈ book.ordersOf side :=
        List.mem_append_left _ (perm.mem_iff.mpr (List.mem_cons_of_mem _ member))
      exact (formed.rests known).2.live
    · rw [ladder_setLadder_opposite]
      exact formed.ladders side.opposite

theorem removeMarket?_removes {book later : OrderBook} {side : Side} {number : String}
    {order : Order} (found : book.removeMarket? side number = some (order, later)) :
    order.number = number ∧ order ∈ book.queue side ∧ book.Removes order later := by
  obtain ⟨⟨taken, left⟩, extracted, same⟩ := Option.map_eq_some_iff.mp found
  cases same
  obtain ⟨number_eq, before, after, split, rfl⟩ := OrderQueue.extract?_eq_some extracted
  have fewer : (before ++ after).Sublist (book.queue side) := by
    rw [split]
    exact List.Sublist.append_left (List.sublist_cons_self _ _) _
  refine ⟨number_eq, by simp [split], fun _ => .refl _, forall_side side ?_ ?_, ?_, ?_⟩
  · rw [queue_setQueue]
    exact .of_sublist fewer
  · rw [queue_setQueue_opposite]
    exact .refl _
  · rw [coe_orders _ side, coe_orders _ side]
    simp only [ordersOf, ladder_setQueue, queue_setQueue, queue_setQueue_opposite, split,
      ← Multiset.coe_add, ← Multiset.cons_coe, Multiset.add_cons, Multiset.cons_add]
  · intro symbol formed
    refine ⟨formed.ladders, forall_side side ?_ ?_⟩
    · rw [queue_setQueue]
      exact fun resting member => formed.queues side resting (fewer.subset member)
    · rw [queue_setQueue_opposite]
      exact formed.queues side.opposite

def take? (book : OrderBook) (request : CancelRequest) : Option (Order × OrderBook) :=
  match request.kind with
  | .limit => book.removeLimit? request.side request.price request.number
  | .market => book.removeMarket? request.side request.number

theorem take?_removes {book later : OrderBook} {request : CancelRequest} {order : Order}
    (taken : book.take? request = some (order, later)) :
    order.number = request.number ∧ book.Removes order later := by
  unfold take? at taken
  cases kind : request.kind with
  | limit =>
      simp only [kind] at taken
      exact removeLimit?_removes taken
  | market =>
      simp only [kind] at taken
      obtain ⟨number, -, removes⟩ := removeMarket?_removes taken
      exact ⟨number, removes⟩

end OrderBook

namespace Market

structure Accepts (market : Market) (order : Order) : Prop where
  running : market.halted = false
  rests : order.Rests market.symbol
  remaining_pos : ∃ remaining, order.remaining = .ok remaining ∧ 0 < remaining
  price_pos : order.kind = .limit → 0 < order.price

theorem accepts_of_refusal?_none {market : Market} {order : Order}
    (accepted : market.refusal? order = .ok none) : market.Accepts order := by
  unfold refusal? at accepted
  split_ifs at accepted with halted mismatch nothing invalid
  · cases accepted
  · cases accepted
  · cases accepted
  · obtain ⟨remaining, -, rest⟩ := (bind_eq_ok _ _ _).mp accepted
    split_ifs at rest <;> cases rest
  · obtain ⟨remaining, subtracted, rest⟩ := (bind_eq_ok _ _ _).mp accepted
    split_ifs at rest with spent
    · cases rest
    -- every test that did not refuse the order is a field
    simp only [Decimal.le_iff_value, Decimal.value_zero, not_or, not_and, not_le] at *
    refine ⟨Bool.eq_false_iff.mpr halted, ⟨not_not.mp mismatch, ?_, Bool.eq_false_iff.mpr spent.2⟩,
      ⟨remaining, subtracted, ?_⟩, ?_⟩
    · rwa [Decimal.pos_iff]
    · rw [Decimal.pos_iff]
      exact spent.1
    · intro limit
      rw [Decimal.pos_iff]
      exact invalid limit

theorem refusal?_of_accepts {market : Market} {order : Order} (accepts : market.Accepts order) :
    market.refusal? order = .ok none := by
  obtain ⟨remaining, left, some⟩ := accepts.remaining_pos
  have asked := accepts.rests.amount_pos
  rw [Decimal.pos_iff, ← Decimal.not_nonpos_iff] at asked some
  have priced : ¬ (order.kind = .limit ∧ order.price ≤ 0) := by
    rintro ⟨limit, free⟩
    exact Decimal.not_nonpos_iff.mpr (Decimal.pos_iff.mp (accepts.price_pos limit)) free
  simp only [refusal?, accepts.running, accepts.rests.symbol_eq, asked, left, some,
    accepts.rests.live, priced, Bool.false_eq_true, ↓reduceIte, ne_eq, not_true_eq_false, or_self,
    bind, Except.bind]
  rfl

/-- One stage of matching for a taker of `side`: deals with the other side of
the book, which keeps its shape; everything else stays. -/
structure Stage (now : Instant) (side : Side) (market : Market) (pass later : Pass)
    (after : Market) : Prop where
  frame : after = { market with book := after.book }
  own_ladder : after.book.ladder side = market.book.ladder side
  own_queue : after.book.queue side = market.book.queue side
  cleared : Pass.Cleared market.listing now pass (market.book.ordersOf side.opposite) later
    (after.book.ordersOf side.opposite)
  ladder_left : Ladder.Remainder (market.book.ladder side.opposite)
    (after.book.ladder side.opposite)
  queue_left : OrderQueue.Remainder (market.book.queue side.opposite)
    (after.book.queue side.opposite)
  formed : after.book.WellFormed market.symbol

section Stages
variable {now : Instant} {side : Side} {market after : Market} {pass later : Pass}

theorem Stage.idle (pass : Pass) (side : Side) (formed : market.book.WellFormed market.symbol) :
    Stage now side market pass pass market where
  frame := rfl
  own_ladder := rfl
  own_queue := rfl
  cleared := .idle pass fun _ member => (formed.rests member).2.live
  ladder_left := .refl _
  queue_left := .refl _
  formed := formed

theorem Stage.symbol_eq (stage : Stage now side market pass later after) :
    after.symbol = market.symbol := by
  rw [stage.frame]
  rfl

theorem Stage.listing_eq (stage : Stage now side market pass later after) :
    after.listing = market.listing := by
  rw [stage.frame]

theorem Stage.formed_after (stage : Stage now side market pass later after) :
    after.book.WellFormed after.symbol := stage.symbol_eq ▸ stage.formed

theorem Stage.ladders (stage : Stage now side market pass later after) :
    ∀ any, Ladder.Remainder (market.book.ladder any) (after.book.ladder any) := by
  refine OrderBook.forall_side side ?_ stage.ladder_left
  rw [stage.own_ladder]
  exact .refl _

theorem Stage.queues (stage : Stage now side market pass later after) :
    ∀ any, OrderQueue.Remainder (market.book.queue any) (after.book.queue any) := by
  refine OrderBook.forall_side side ?_ stage.queue_left
  rw [stage.own_queue]
  exact .refl _

theorem Stage.taker_terms (stage : Stage now side market pass later after) :
    later.taker.terms = pass.taker.terms := by
  obtain ⟨_, deals, -, -, -⟩ := stage.cleared
  exact (Pass.dealings_terms deals).1

theorem Stage.trans {last : Pass} {final : Market}
    (first : Stage now side market pass later after)
    (second : Stage now side after later last final) : Stage now side market pass last final where
  frame := by rw [second.frame, first.frame]
  own_ladder := second.own_ladder.trans first.own_ladder
  own_queue := second.own_queue.trans first.own_queue
  cleared := first.cleared.trans (first.listing_eq ▸ second.cleared)
  ladder_left := first.ladder_left.trans second.ladder_left
  queue_left := first.queue_left.trans second.queue_left
  formed := first.symbol_eq ▸ second.formed

theorem Stage.ofLadder {ladder : Ladder} (formed : market.book.WellFormed market.symbol)
    (swept : Pass.Swept market.listing now pass (market.book.ladder side.opposite) later ladder) :
    Stage now side market pass later
      { market with book := market.book.setLadder side.opposite ladder } where
  frame := rfl
  own_ladder := by
    have own := OrderBook.ladder_setLadder_opposite market.book side.opposite ladder
    rwa [Side.opposite_opposite] at own
  own_queue := rfl
  cleared := by
    have standing : Pass.Cleared market.listing now later (market.book.queue side.opposite)
        later (market.book.queue side.opposite) :=
      .idle later fun order member => (formed.queues side.opposite order member).2.2.live
    simpa [OrderBook.ordersOf] using swept.cleared.seq standing
  ladder_left := by
    rw [OrderBook.ladder_setLadder]
    exact swept.remainder
  queue_left := .refl _
  formed := by
    refine ⟨OrderBook.forall_side side.opposite ?_ ?_, formed.queues⟩
    · rw [OrderBook.ladder_setLadder]
      exact swept.wellFormed (formed.ladders side.opposite)
    · rw [OrderBook.ladder_setLadder_opposite]
      exact formed.ladders side.opposite.opposite

theorem Stage.ofQueue {queue : OrderQueue} (formed : market.book.WellFormed market.symbol)
    (cleared : Pass.Cleared market.listing now pass (market.book.queue side.opposite) later queue)
    (left : OrderQueue.Remainder (market.book.queue side.opposite) queue) :
    Stage now side market pass later
      { market with book := market.book.setQueue side.opposite queue } where
  frame := rfl
  own_ladder := rfl
  own_queue := by
    have own := OrderBook.queue_setQueue_opposite market.book side.opposite queue
    rwa [Side.opposite_opposite] at own
  cleared := by
    have standing : Pass.Swept market.listing now pass (market.book.ladder side.opposite)
        pass (market.book.ladder side.opposite) := .idle pass (formed.ladders side.opposite)
    simpa [OrderBook.ordersOf] using standing.cleared.seq cleared
  ladder_left := .refl _
  queue_left := by
    rwa [OrderBook.queue_setQueue]
  formed := by
    refine ⟨formed.ladders, OrderBook.forall_side side.opposite ?_ ?_⟩
    · rw [OrderBook.queue_setQueue]
      obtain ⟨_, _, _, _, live⟩ := cleared
      exact (formed.queues side.opposite).remainder left live
    · rw [OrderBook.queue_setQueue_opposite]
      exact formed.queues side.opposite.opposite

theorem matchApportioned_stage (formed : market.book.WellFormed market.symbol)
    (matched : market.matchApportioned now pass = .ok (later, after)) :
    Stage now pass.taker.side market pass later after := by
  unfold matchApportioned at matched
  split_ifs at matched
  · obtain ⟨⟨given, ladder⟩, shared, same⟩ := (bind_eq_ok _ _ _).mp matched
    cases same
    exact .ofLadder formed (Pass.apportion_swept (formed.ladders _) shared)
  · cases matched
    exact .idle _ _ formed

theorem matchLadder_stage {limit : Option Decimal} (formed : market.book.WellFormed market.symbol)
    (matched : market.matchLadder now limit pass = .ok (later, after)) :
    Stage now pass.taker.side market pass later after := by
  unfold matchLadder at matched
  split_ifs at matched with done
  · cases matched
    exact .idle _ _ formed
  · obtain ⟨⟨swept, ladder⟩, walk, same⟩ := (bind_eq_ok _ _ _).mp matched
    cases same
    exact .ofLadder formed
      (Pass.sweepLadder_swept (Bool.eq_false_iff.mpr done) (formed.ladders _) walk)

theorem matchQueue_stage (formed : market.book.WellFormed market.symbol)
    (limit : pass.taker.kind = .limit)
    (matched : market.matchQueue now pass = .ok (later, after)) :
    Stage now pass.taker.side market pass later after := by
  unfold matchQueue at matched
  split_ifs at matched with done
  · cases matched
    exact .idle _ _ formed
  · obtain ⟨⟨swept, queue⟩, walk, same⟩ := (bind_eq_ok _ _ _).mp matched
    cases same
    have waiting : ∀ order ∈ market.book.queue pass.taker.side.opposite,
        order.isCompleted = false :=
      fun order member => (formed.queues _ order member).2.2.live
    obtain ⟨cleared, left⟩ := Pass.sweepQueue_cleared (Bool.eq_false_iff.mpr done) waiting
      (fun _ _ => Or.inl limit) walk
    exact .ofQueue formed cleared left

theorem matchQueue_of_done (done : pass.taker.isCompleted = true)
    (matched : market.matchQueue now pass = .ok (later, after)) : later = pass := by
  simp only [matchQueue, done, ↓reduceIte] at matched
  cases matched
  rfl

theorem matchOrder_limit {order : Order} (formed : market.book.WellFormed market.symbol)
    (limit : order.kind = .limit) (matched : market.matchOrder now order = .ok (later, after)) :
    ∃ first shared second swept,
      market.matchApportioned now (.start order) = .ok (first, shared) ∧
      shared.matchLadder now (some order.price) first = .ok (second, swept) ∧
      swept.matchQueue now second = .ok (later, after) ∧
      Stage now order.side market (.start order) first shared ∧
      Stage now order.side shared first second swept ∧
      Stage now order.side swept second later after := by
  simp only [matchOrder, limit, bind_eq_ok] at matched
  obtain ⟨⟨first, shared⟩, apportioned, ⟨second, swept⟩, walked, queued⟩ := matched
  have sharing := matchApportioned_stage formed apportioned
  have sweeping := matchLadder_stage sharing.formed_after walked
  have second_limit : second.taker.kind = .limit :=
    (Order.kind_of_terms (sweeping.taker_terms.trans sharing.taker_terms)).trans limit
  have queueing := matchQueue_stage sweeping.formed_after second_limit queued
  have first_side : first.taker.side = order.side := Order.side_of_terms sharing.taker_terms
  rw [first_side] at sweeping
  have second_side : second.taker.side = first.taker.side :=
    Order.side_of_terms sweeping.taker_terms
  rw [second_side, first_side] at queueing
  exact ⟨first, shared, second, swept, apportioned, walked, queued, sharing, sweeping, queueing⟩

/-- All matching of a pass is one stage from the start. -/
theorem matchOrder_stage {order : Order} (formed : market.book.WellFormed market.symbol)
    (matched : market.matchOrder now order = .ok (later, after)) :
    Stage now order.side market (.start order) later after := by
  cases kind : order.kind with
  | market =>
      simp only [matchOrder, kind] at matched
      exact matchLadder_stage formed matched
  | limit =>
      obtain ⟨_, _, _, _, -, -, -, sharing, sweeping, queueing⟩ :=
        matchOrder_limit formed kind matched
      exact (sharing.trans sweeping).trans queueing

end Stages

theorem applyDeltas_frame {market later : Market} {side : Side} {deltas : DepthDeltas}
    {changed : List Side} (applied : market.applyDeltas side deltas = .ok (changed, later)) :
    later = { market with depths := later.depths } := by
  obtain ⟨⟨_, view⟩, _, same⟩ := (bind_eq_ok _ _ _).mp applied
  cases same
  rfl

theorem rest_frame {market later : Market} {order : Order} {changed : List Side}
    (rested : market.rest order = .ok (changed, later)) :
    later = { market with book := market.book.place order, depths := later.depths } := by
  unfold Market.rest at rested
  unfold OrderBook.place
  cases kind : order.kind with
  | limit =>
      simp only [kind] at rested
      obtain ⟨⟨_, view⟩, _, same⟩ := (bind_eq_ok _ _ _).mp rested
      cases same
      rfl
  | market =>
      simp only [kind] at rested
      cases rested
      rfl

/-- How a pass ends: the taker is reported as done or takes its place. -/
theorem finish_cases {market later : Market} {pass : Pass} {report : Report}
    (ended : market.finish pass = .ok (report, later)) :
    report.trades = pass.trades.toList ∧
      later = { market with book := later.book, depths := later.depths } ∧
      ((pass.taker.isCompleted = true ∧
          report.completed = pass.completed.toList ++ [pass.taker] ∧
          report.resting = none ∧ later.book = market.book) ∨
        (pass.taker.isCompleted = false ∧ report.completed = pass.completed.toList ∧
          report.resting = some pass.taker ∧ later.book = market.book.place pass.taker)) := by
  simp only [finish, bind_eq_ok] at ended
  obtain ⟨⟨opposing, viewed⟩, applied, rest⟩ := ended
  have frame := applyDeltas_frame applied
  split_ifs at rest with done
  · cases rest
    rw [frame]
    exact ⟨rfl, rfl, Or.inl ⟨done, rfl, rfl, rfl⟩⟩
  · obtain ⟨⟨own, placed⟩, rested, same⟩ := (bind_eq_ok _ _ _).mp rest
    cases same
    rw [rest_frame rested, frame]
    exact ⟨rfl, rfl, Or.inr ⟨Bool.eq_false_iff.mpr done, rfl, rfl, rfl⟩⟩

theorem trade_cases {market later : Market} {now : Instant} {order : Order} {outcome : Outcome}
    (traded : market.trade now order = .ok (outcome, later)) :
    (∃ reason, outcome = .refused reason ∧ market.refusal? order = .ok (some reason) ∧
      later = market) ∨
    ∃ report pass after, outcome = .processed report ∧ market.Accepts order ∧
      market.matchOrder now order = .ok (pass, after) ∧
      after.finish pass = .ok (report, later) := by
  simp only [trade, bind_eq_ok] at traded
  obtain ⟨refusal, checked, rest⟩ := traded
  cases refusal with
  | some reason =>
      cases rest
      exact Or.inl ⟨reason, rfl, checked, rfl⟩
  | none =>
      simp only [bind_eq_ok, return_eq_ok] at rest
      obtain ⟨⟨pass, after⟩, matched, ⟨report, last⟩, ended, same⟩ := rest
      cases same
      exact Or.inr ⟨report, pass, after, rfl, accepts_of_refusal?_none checked, matched, ended⟩

/-- What an order that is not refused does to a market: it deals with the other
side of the book, and afterwards every order that took part rests or is reported
as done. -/
structure Processes (now : Instant) (order : Order) (market : Market) (report : Report)
    (later : Market) (pass : Pass) (left : Multiset Order) : Prop where
  traded : market.trade now order = .ok (.processed report, later)
  accepts : market.Accepts order
  dealings : Pass.Dealings market.listing now (.start order)
    (market.book.ordersOf order.side.opposite) pass left
  trades : report.trades = pass.trades.toList
  orders : (later.book.orders + report.completed : Multiset Order) =
    pass.taker ::ₘ (market.book.ordersOf order.side + left)
  finished : ∀ record ∈ report.completed, record.isCompleted = true
  ended : ∃ after : Market, after.depths = market.depths ∧ after.finish pass = .ok (report, later)
  placed : ∃ between : OrderBook,
    (∀ side, Ladder.Remainder (market.book.ladder side) (between.ladder side)) ∧
    (∀ side, OrderQueue.Remainder (market.book.queue side) (between.queue side)) ∧
    (later.book = between ∨ later.book = between.place pass.taker)
  formed : later.book.WellFormed later.symbol
  frame : later = { market with book := later.book, depths := later.depths }

theorem processes_of_trade {market later : Market} {now : Instant} {order : Order}
    {report : Report} (formed : market.book.WellFormed market.symbol)
    (traded : market.trade now order = .ok (.processed report, later)) :
    ∃ pass left, Processes now order market report later pass left := by
  rcases trade_cases traded with
    ⟨_, refused, -, -⟩ | ⟨_, pass, after, same, accepts, matched, ended⟩
  · cases refused
  cases same
  have stage := matchOrder_stage formed matched
  obtain ⟨done, dealings, reported, finished, -⟩ := stage.cleared
  obtain ⟨trades, frame, ending⟩ := finish_cases ended
  have book : (after.book.orders : Multiset Order) = (market.book.ordersOf order.side +
      after.book.ordersOf order.side.opposite : Multiset Order) := by
    rw [OrderBook.coe_orders _ order.side, OrderBook.ordersOf, stage.own_ladder, stage.own_queue]
    rfl
  have symbol : later.symbol = market.symbol := by
    rw [frame, stage.frame]
    rfl
  -- the taker is the last to be reported, or the one order that is new in the book
  refine ⟨pass, _, traded, accepts, dealings, trades, ?_, ?_,
    ⟨after, by rw [stage.frame], ended⟩, ⟨after.book, stage.ladders, stage.queues, ?_⟩, ?_,
    by rw [frame, stage.frame]⟩
  · rcases ending with ⟨-, completed, -, same⟩ | ⟨-, completed, -, same⟩
    · rw [completed, same, book, reported, ← Multiset.coe_add, ← Multiset.coe_add,
        Multiset.coe_singleton, ← Multiset.singleton_add]
      simp only [Pass.start, Multiset.coe_nil, zero_add]
      abel
    · rw [completed, same, OrderBook.coe_orders_place, book, reported, ← Multiset.coe_add,
        ← Multiset.singleton_add, ← Multiset.singleton_add]
      simp only [Pass.start, Multiset.coe_nil, zero_add]
      abel
  · intro record member
    rcases ending with ⟨ended, completed, -, -⟩ | ⟨-, completed, -, -⟩
    · rw [completed, reported] at member
      rcases List.mem_append.mp member with maker | taker
      · exact finished record maker
      · obtain rfl := List.mem_singleton.mp taker
        exact ended
    · rw [completed, reported] at member
      exact finished record member
  · rcases ending with ⟨-, -, -, same⟩ | ⟨-, -, -, same⟩
    · exact Or.inl same
    · exact Or.inr same
  · rw [symbol]
    rcases ending with ⟨-, -, -, same⟩ | ⟨live, -, -, same⟩
    · rw [same]
      exact stage.formed
    · rw [same]
      have terms := stage.taker_terms
      refine stage.formed.place (accepts.rests.of_terms terms.symm live) ?_
      intro limit
      rw [Order.kind_of_terms terms] at limit
      rw [Order.price_of_terms terms]
      exact accepts.price_pos limit

/-- All that a cancellation can do: it finds no order and changes nothing, or it takes one
out of the book and, if that is a limit order, off the depth view of its side. -/
theorem cancel_finds {market later : Market} {request : CancelRequest} {removed : Option Order}
    (cancelled : market.cancel request = .ok (removed, later)) :
    (removed = none ∧ later = market ∧
        (request.symbol = market.symbol → market.book.take? request = none)) ∨
    request.symbol = market.symbol ∧ ∃ order book,
      market.book.take? request = some (order, book) ∧ removed = some order.cancel ∧
      (request.kind = .market ∧ later = { market with book } ∨
        request.kind = .limit ∧ ∃ remaining changed view, order.remaining = .ok remaining ∧
          (market.depth order.side).remove order remaining = .ok (changed, view) ∧
          later = { market with book, depths := market.depths.set order.side view }) := by
  unfold cancel at cancelled
  unfold OrderBook.take?
  split_ifs at cancelled with mismatch
  · cases cancelled
    exact Or.inl ⟨rfl, rfl, fun same => absurd same mismatch⟩
  have symbol := not_not.mp mismatch
  cases kind : request.kind with
  | market =>
      simp only [kind] at cancelled ⊢
      split at cancelled
      · rename_i order book found
        cases cancelled
        exact Or.inr ⟨symbol, order, book, found, rfl, Or.inl ⟨trivial, rfl⟩⟩
      · rename_i nothing
        cases cancelled
        exact Or.inl ⟨rfl, rfl, fun _ => nothing⟩
  | limit =>
      simp only [kind] at cancelled ⊢
      split at cancelled
      · rename_i order book found
        simp only [bind_eq_ok, return_eq_ok] at cancelled
        obtain ⟨remaining, left, ⟨changed, view⟩, taken, same⟩ := cancelled
        cases same
        exact Or.inr ⟨symbol, order, book, found, rfl,
          Or.inr ⟨trivial, remaining, changed, view, left, taken, rfl⟩⟩
      · rename_i nothing
        cases cancelled
        exact Or.inl ⟨rfl, rfl, fun _ => nothing⟩

theorem cancel_cases {market later : Market} {request : CancelRequest} {removed : Option Order}
    (cancelled : market.cancel request = .ok (removed, later)) :
    (removed = none ∧ later = market) ∨
    ∃ order, removed = some order.cancel ∧ order.number = request.number ∧
      market.book.Removes order later.book ∧
      later = { market with book := later.book, depths := later.depths } ∧
      ((∃ side, order ∈ market.book.queue side) ∧ later.depths = market.depths ∨
        ∃ remaining changed view, order.remaining = .ok remaining ∧
          (market.depth order.side).remove order remaining = .ok (changed, view) ∧
          later.depths = market.depths.set order.side view) := by
  rcases cancel_finds cancelled with ⟨none, same, -⟩ |
    ⟨-, order, book, found, some, ⟨kind, rfl⟩ | ⟨-, remaining, changed, view, left, taken, rfl⟩⟩
  · exact Or.inl ⟨none, same⟩
  · obtain ⟨number, removes⟩ := OrderBook.take?_removes found
    simp only [OrderBook.take?, kind] at found
    obtain ⟨-, waiting, -⟩ := OrderBook.removeMarket?_removes found
    exact Or.inr ⟨order, some, number, removes, rfl, Or.inl ⟨⟨_, waiting⟩, rfl⟩⟩
  · obtain ⟨number, removes⟩ := OrderBook.take?_removes found
    exact Or.inr ⟨order, some, number, removes, rfl,
      Or.inr ⟨remaining, changed, view, left, taken, rfl⟩⟩

theorem cancel_of_none {market : Market} {request : CancelRequest}
    (nothing : market.book.take? request = none) :
    market.cancel request = .ok (none, market) := by
  unfold OrderBook.take? at nothing
  unfold cancel
  split_ifs
  · rfl
  cases kind : request.kind with
  | market =>
      simp only [kind] at nothing
      simp only [nothing]
  | limit =>
      simp only [kind] at nothing
      simp only [nothing]

end Market

end SpotExchange
