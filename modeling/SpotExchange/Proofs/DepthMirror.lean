import SpotExchange.Proofs.StandingDepth

/-!
The depth views of a market against its book. A view is kept up beside the book: it
follows the deals of each pass, the order that comes to rest, and each cancellation.
At every price better than all it ever dropped for room, it shows just what the
orders there have left.
-/

namespace SpotExchange

theorem Side.eq_or_opposite (own side : Side) : side = own ∨ side = own.opposite := by
  cases own <;> cases side <;> simp [opposite]

theorem Side.opposite_ne (side : Side) : side.opposite ≠ side := by
  cases side <;> exact nofun

namespace DepthView

theorem Mirrors.remove {places : Nat} {dropped : List Decimal}
    {total total' : ℚ → ℚ} {view later : DepthView} {changed : Bool} {order : Order}
    {remaining : Decimal} (mirrors : Mirrors places order.side dropped total view)
    (listed : order.Listed places) (rest : order.remaining = .ok remaining)
    (fewer : ∀ p, total p = order.offers order.side p + total' p) (nonneg : ∀ p, 0 ≤ total' p)
    (small : ∀ p, total p * tenTo places < Decimal.bound)
    (removed : view.remove order remaining = .ok (changed, later)) :
    Mirrors places order.side dropped total' later := by
  unfold DepthView.remove at removed
  by_cases limit : order.kind = .limit
  · have covers : view.covers order = true := by simp [DepthView.covers, limit, mirrors.side_eq]
    have exact := listed.of_limit limit
    obtain ⟨left, same, value, grid⟩ := exact.remaining
    obtain rfl : left = remaining := Except.ok.inj (same.symm.trans rest)
    have offers (p : ℚ) : order.offers order.side p =
        if p = order.price.value then left.value else 0 := by
      simp [Order.offers, limit, value, eq_comm]
    rw [if_pos covers] at removed
    refine mirrors.removeAt grid (value ▸ exact.left_nonneg) ?_ (small _) ?_ removed
    · rw [fewer, offers, if_pos rfl]
      exact le_add_of_nonneg_right (nonneg _)
    · intro p
      rw [fewer, offers]
      ring
  · have none : view.covers order = false := by simp [DepthView.covers, limit]
    rw [none] at removed
    cases removed
    obtain rfl : total = total' := funext fun p => by
      rw [fewer, Order.offers, if_neg (fun here => limit here.1), zero_add]
    exact mirrors

end DepthView

def Answer.resting? : Answer → Option Order
  | .outcome (.processed report) => report.resting
  | _ => none

namespace Market

/-- The prices that the view of a side lost for room when an order came to rest. -/
def lost (side : Side) (before after : Market) (answer : Answer) : List Decimal :=
  match answer.resting? with
  | some order =>
    if order.kind = .limit ∧ order.side = side then
      (before.depth side).lost (after.depth side) order
    else []
  | none => []

/-- All prices that the view of a side ever lost for room, while a market performed
some actions. -/
def dropped (side : Side) (market : Market) : List Action → Except Overflow (List Decimal)
  | [] => .ok []
  | action :: rest => do
    let (answer, later) ← market.perform action
    let others ← later.dropped side rest
    return market.lost side later answer ++ others

section Views
variable {market later : Market} {side : Side}

theorem depth_of_set {view : DepthView} (set : later.depths = market.depths.set side view) :
    later.depth side = view ∧ later.depth side.opposite = market.depth side.opposite := by
  unfold depth
  rw [set]
  simp

theorem depth_congr {other : Market} (same : other.depths = market.depths) :
    other.depth = market.depth := by
  unfold depth
  rw [same]

theorem lost_eq_nil {answer : Answer} (none : ∀ order, answer.resting? = some order →
    ¬ (order.kind = .limit ∧ order.side = side)) : market.lost side later answer = [] := by
  unfold Market.lost
  split
  · rename_i order resting
    exact if_neg (none order resting)
  · rfl

theorem lost_of_none {answer : Answer} (none : answer.resting? = none) :
    market.lost side later answer = [] :=
  lost_eq_nil fun order some => by rw [none] at some; cases some

/-- How the end of a pass changes the views: what was taken leaves the opposing one,
and an order that comes to rest joins its own. -/
theorem depths_of_finish {pass : Pass} {report : Report}
    (ended : market.finish pass = .ok (report, later)) :
    (∃ changed, (market.depth pass.taker.side.opposite).removeMany pass.deltas =
      .ok (changed, later.depth pass.taker.side.opposite)) ∧
    ((pass.taker.isCompleted = true ∧ report.resting = none ∨ pass.taker.kind = .market ∧
          report.resting = some pass.taker) ∧
        later.depth pass.taker.side = market.depth pass.taker.side ∨
      pass.taker.isCompleted = false ∧ pass.taker.kind = .limit ∧
        report.resting = some pass.taker ∧ ∃ changed,
          (market.depth pass.taker.side).insert pass.taker =
            .ok (changed, later.depth pass.taker.side)) := by
  simp only [finish, bind_eq_ok] at ended
  obtain ⟨⟨opposing, viewed⟩, applied, rest⟩ := ended
  obtain ⟨⟨changed, view⟩, removed, same⟩ := (bind_eq_ok _ _ _).mp applied
  have set : viewed.depths = market.depths.set pass.taker.side.opposite view := by
    cases same
    rfl
  obtain ⟨other, own⟩ := depth_of_set set
  rw [Side.opposite_opposite] at own
  rw [← other] at removed
  -- the view of its own side changes only if the taker is a limit order that rests
  split_ifs at rest with done
  · cases rest
    exact ⟨⟨changed, removed⟩, Or.inl ⟨Or.inl ⟨done, rfl⟩, own⟩⟩
  · obtain ⟨⟨shown, placed⟩, rested, same⟩ := (bind_eq_ok _ _ _).mp rest
    cases same
    unfold Market.rest at rested
    cases kind : pass.taker.kind with
    | market =>
        simp only [kind] at rested
        cases rested
        exact ⟨⟨changed, removed⟩, Or.inl ⟨Or.inr ⟨rfl, rfl⟩, own⟩⟩
    | limit =>
        simp only [kind] at rested
        obtain ⟨⟨put, inserted⟩, adding, same⟩ := (bind_eq_ok _ _ _).mp rested
        have set : placed.depths = viewed.depths.set pass.taker.side inserted := by
          cases same
          rfl
        obtain ⟨here, there⟩ := depth_of_set set
        rw [← there] at removed
        rw [own, ← here] at adding
        exact ⟨⟨changed, removed⟩,
          Or.inr ⟨Bool.eq_false_iff.mpr done, rfl, rfl, put, adding⟩⟩

end Views

/-- A market whose book holds exact orders, with room for more, and whose view of a
side mirrors the book. -/
structure Reflects (places : Nat) (side : Side) (dropped : List Decimal) (room : ℚ)
    (market : Market) : Prop where
  base_le : market.listing.baseScale ≤ places
  formed : market.book.WellFormed market.symbol
  listed : ∀ order ∈ market.book.orders, order.Listed places
  small : (((market.book.orders : Multiset Order).map fun order => order.amount.value).sum + room) *
    tenTo places < Decimal.bound
  mirrors : DepthView.Mirrors places side dropped
    (fun p => standing side p market.book.orders) (market.depth side)

section Reflects
variable {places : Nat} {side : Side} {seen : List Decimal} {room : ℚ} {market later : Market}

theorem Reflects.nonneg (reflects : Reflects places side seen room market) (p : ℚ) :
    0 ≤ standing side p market.book.orders := standing_nonneg side p reflects.listed

theorem Reflects.standing_lt (reflects : Reflects places side seen room market)
    (room_nonneg : 0 ≤ room) (p : ℚ) :
    standing side p market.book.orders * tenTo places < Decimal.bound := by
  refine Decimal.scaled_lt ?_ reflects.small
  have most : standing side p market.book.orders ≤ _ := standing_le side p reflects.listed
  linarith

theorem Reflects.start (listing : Listing) (base : listing.baseScale ≤ places)
    (small : room * tenTo places < Decimal.bound) :
    Reflects places side [] room (.ofListing listing) where
  base_le := base
  formed := .empty _
  listed := fun _ member => nomatch member
  small := by
    change (0 + room) * (tenTo places : ℚ) < _
    rwa [zero_add]
  mirrors := by
    cases side <;> exact .empty listing.maxDepth

theorem Reflects.quiet (reflects : Reflects places side seen room market) {less : ℚ}
    (fewer : less ≤ room)
    (frame : later = { market with halted := later.halted, ready := later.ready }) :
    Reflects places side seen less later := by
  rw [frame]
  refine ⟨reflects.base_le, reflects.formed, reflects.listed, ?_, reflects.mirrors⟩
  refine Decimal.scaled_lt ?_ reflects.small
  exact add_le_add_right fewer _

theorem Reflects.removed (reflects : Reflects places side seen room market)
    (room_nonneg : 0 ≤ room) {order : Order} (removes : market.book.Removes order later.book)
    (frame : later = { market with book := later.book, depths := later.depths })
    (views : (∃ side, order ∈ market.book.queue side) ∧ later.depths = market.depths ∨
      ∃ remaining changed view, order.remaining = .ok remaining ∧
        (market.depth order.side).remove order remaining = .ok (changed, view) ∧
        later.depths = market.depths.set order.side view) :
    Reflects places side seen room later := by
  have rested (record : Order) : record ∈ market.book.orders ↔
      record = order ∨ record ∈ later.book.orders := by
    rw [← Multiset.mem_coe, removes.orders, Multiset.mem_cons, Multiset.mem_coe]
  have gone := reflects.listed order ((rested order).mpr (Or.inl rfl))
  have listed : ∀ record ∈ later.book.orders, record.Listed places := fun record member =>
    reflects.listed record ((rested record).mpr (Or.inr member))
  have fewer (p : ℚ) : standing side p market.book.orders =
      order.offers side p + standing side p later.book.orders := by
    rw [removes.orders, standing_cons]
  have unchanged (none : ∀ p, order.offers side p = 0) :
      (fun p => standing side p market.book.orders) =
        fun p => standing side p later.book.orders :=
    funext fun p => by rw [fewer, none, zero_add]
  constructor
  · rw [frame]
    exact reflects.base_le
  · rw [frame]
    exact removes.formed reflects.formed
  · exact listed
  · refine Decimal.scaled_lt ?_ reflects.small
    rw [removes.orders, Multiset.map_cons, Multiset.sum_cons]
    linarith [gone.amount_nonneg]
  · rcases views with ⟨⟨_, waiting⟩, same⟩ | ⟨remaining, changed, view, rest, taken, set⟩
    · -- an order of a queue is in no view
      have market_kind := (reflects.formed.queues _ order waiting).1
      rw [← unchanged fun p => Order.offers_of_market market_kind, depth, same]
      exact reflects.mirrors
    · obtain ⟨own, other⟩ := depth_of_set set
      -- the order stood on the side of this view or on the other one
      rcases Side.eq_or_opposite order.side side with rfl | rfl
      · rw [own]
        exact reflects.mirrors.remove gone rest fewer (fun p => standing_nonneg _ p listed)
          (reflects.standing_lt room_nonneg) taken
      · rw [← unchanged fun p => Order.offers_of_side (Side.opposite_ne _).symm, other]
        exact reflects.mirrors

section Pass
variable {now : Instant} {order : Order} {report : Report} {pass : Pass} {left : Multiset Order}
  (processes : Processes now order market report later pass left)
include processes

theorem Processes.standing_eq (completed : ∀ record ∈ report.completed, record.Listed places)
    (p : ℚ) : standing side p later.book.orders = pass.taker.offers side p +
      (standing side p (market.book.ordersOf order.side) + standing side p left) := by
  have none : standing side p report.completed = 0 := standing_eq_zero fun record member =>
    (completed record member).offers_of_completed (processes.finished record member)
  have whole := congrArg (standing side p) processes.orders
  rwa [standing_add, none, add_zero, standing_cons, standing_add] at whole

theorem Processes.amounts_le (completed : ∀ record ∈ report.completed, record.Listed places) :
    ((later.book.orders : Multiset Order).map fun record => record.amount.value).sum ≤
      order.amount.value +
        ((market.book.orders : Multiset Order).map fun record => record.amount.value).sum := by
  have nonneg : 0 ≤ ((report.completed : Multiset Order).map fun record =>
      record.amount.value).sum := by
    apply Multiset.sum_nonneg
    intro amount member
    obtain ⟨record, inside, rfl⟩ := Multiset.mem_map.mp member
    exact (completed record inside).amount_nonneg
  -- deals change no amount, so the orders of before and after ask for the same
  obtain ⟨taker, makers⟩ := Pass.dealings_terms processes.dealings
  have amount : pass.taker.amount = order.amount := Order.amount_of_terms taker
  have same := congrArg (Multiset.map fun record => record.amount.value) makers
  rw [Multiset.map_map, Multiset.map_map] at same
  change left.map (fun record => record.amount.value) =
    (market.book.ordersOf order.side.opposite : Multiset Order).map
      (fun record => record.amount.value) at same
  have whole := congrArg (fun orders => (orders.map fun record => record.amount.value).sum)
    processes.orders
  simp only [Multiset.map_add, Multiset.sum_add, Multiset.map_cons, Multiset.sum_cons, amount,
    same] at whole
  rw [OrderBook.coe_orders market.book order.side, Multiset.map_add, Multiset.sum_add]
  linarith

end Pass

theorem standing_of_side {symbol : String} {book : OrderBook} (formed : book.WellFormed symbol)
    {other : Side} (apart : other ≠ side) (p : ℚ) : standing side p (book.ordersOf other) = 0 := by
  apply standing_eq_zero
  intro order member
  exact Order.offers_of_side ((formed.rests member).1 ▸ apart)

section Processed
variable {now : Instant} {order : Order} {report : Report} {pass : Pass} {left : Multiset Order}
  (base : market.listing.baseScale ≤ places) (formed : market.book.WellFormed market.symbol)
  (resting : ∀ resting ∈ market.book.orders, resting.Listed places)
  (fresh : order.Listed places)
  (processes : Processes now order market report later pass left)
include base formed resting fresh processes

theorem Processes.opposing_view
    (small : ∀ p, standing order.side.opposite p market.book.orders * tenTo places < Decimal.bound)
    (mirrors : DepthView.Mirrors places order.side.opposite seen
      (fun p => standing order.side.opposite p market.book.orders)
      (market.depth order.side.opposite)) :
    DepthView.Mirrors places order.side.opposite
      (seen ++ market.lost order.side.opposite later (.outcome (.processed report)))
      (fun p => standing order.side.opposite p later.book.orders)
      (later.depth order.side.opposite) := by
  obtain ⟨listed, completed, -⟩ := processes.keeps (Pass.listed_keeps base) fresh resting
  have taker_side : pass.taker.side = order.side :=
    Order.side_of_terms (Pass.dealings_terms processes.dealings).1
  obtain ⟨after, same, ended⟩ := processes.ended
  obtain ⟨⟨_, removed⟩, own⟩ := depths_of_finish ended
  rw [depth_congr same, taker_side] at removed
  have nothing : market.lost order.side.opposite later (.outcome (.processed report)) = [] := by
    apply lost_eq_nil
    intro other rests
    change report.resting = some other at rests
    have taker : other = pass.taker := by
      rcases own with ⟨⟨-, none⟩ | ⟨-, some⟩, -⟩ | ⟨-, -, some, -⟩
      · rw [none] at rests
        cases rests
      · exact Option.some.inj (rests.symm.trans some)
      · exact Option.some.inj (rests.symm.trans some)
    rw [taker, taker_side]
    exact fun here => (Side.opposite_ne _).symm here.2
  have own_none (p : ℚ) : standing order.side.opposite p (market.book.ordersOf order.side) = 0 :=
    standing_of_side formed (Side.opposite_ne _).symm p
  have makers (p : ℚ) : standing order.side.opposite p market.book.orders =
      standing order.side.opposite p (market.book.ordersOf order.side.opposite) := by
    rw [OrderBook.coe_orders market.book order.side, standing_add, own_none, zero_add]
  obtain ⟨exact, sums⟩ := Pass.dealings_standing processes.dealings base rfl fresh
    (fun maker member => resting maker (OrderBook.mem_orders.mpr ⟨_, member⟩))
    (fun maker member => (formed.rests member).1) (fun p => makers p ▸ small p)
  rw [nothing, List.append_nil]
  refine mirrors.removeMany exact ?_ (fun p => standing_nonneg _ p listed) small removed
  intro p
  rw [processes.standing_eq completed, own_none, zero_add, makers, ← sums p,
    Order.offers_of_side (taker_side ▸ (Side.opposite_ne _).symm), zero_add]

theorem Processes.own_view
    (small : ∀ p, standing order.side p later.book.orders * tenTo places < Decimal.bound)
    (mirrors : DepthView.Mirrors places order.side seen
      (fun p => standing order.side p market.book.orders) (market.depth order.side)) :
    DepthView.Mirrors places order.side
      (seen ++ market.lost order.side later (.outcome (.processed report)))
      (fun p => standing order.side p later.book.orders) (later.depth order.side) := by
  obtain ⟨listed, completed, -⟩ := processes.keeps (Pass.listed_keeps base) fresh resting
  obtain ⟨taker, -⟩ := Pass.dealings_keep (Pass.listed_keeps base) processes.dealings fresh
    fun maker member => resting maker (OrderBook.mem_orders.mpr ⟨_, member⟩)
  have taker_side : pass.taker.side = order.side :=
    Order.side_of_terms (Pass.dealings_terms processes.dealings).1
  have others : ∀ record ∈ left, record.side = order.side.opposite :=
    Pass.sides_of_dealings processes.dealings fun maker member => (formed.rests member).1
  have left_none (p : ℚ) : standing order.side p left = 0 := standing_eq_zero fun record member =>
    Order.offers_of_side (others record member ▸ Side.opposite_ne _)
  have grown (p : ℚ) : standing order.side p later.book.orders =
      standing order.side p market.book.orders + pass.taker.offers order.side p := by
    rw [processes.standing_eq completed, left_none, add_zero,
      OrderBook.coe_orders market.book order.side, standing_add,
      standing_of_side formed (Side.opposite_ne _), add_zero, add_comm]
  have unchanged (none : ∀ p, pass.taker.offers order.side p = 0) :
      (fun p => standing order.side p market.book.orders) =
        fun p => standing order.side p later.book.orders :=
    funext fun p => by rw [grown, none, add_zero]
  obtain ⟨after, same, ended⟩ := processes.ended
  obtain ⟨-, own⟩ := depths_of_finish ended
  rw [depth_congr same, taker_side] at own
  -- a taker that is done offers nothing, and one that waits in a queue is not shown
  rcases own with ⟨⟨done, none⟩ | ⟨kind, some⟩, standing⟩ |
    ⟨live, limit, some, _, inserted⟩
  · have silent : (Answer.outcome (.processed report)).resting? = .none := none
    rw [lost_of_none silent, List.append_nil, standing,
      ← unchanged fun p => taker.offers_of_completed done]
    exact mirrors
  · rw [lost_eq_nil (by simp [Answer.resting?, some, kind]), List.append_nil, standing,
      ← unchanged fun p => Order.offers_of_market kind]
    exact mirrors
  · have exact := taker.of_limit limit
    obtain ⟨remaining, rest, value, grid⟩ := exact.remaining
    have lost : market.lost order.side later (.outcome (.processed report)) =
        (market.depth order.side).lost (later.depth order.side) pass.taker := by
      simp only [Market.lost, Answer.resting?, some, limit, taker_side, and_self, ↓reduceIte]
    rw [lost]
    refine mirrors.insert (by simp [DepthView.covers, limit, taker_side, mirrors.side_eq]) rest grid
      (value ▸ exact.left_pos live) ?_ (small _) inserted
    intro p
    rw [grown, Order.offers, value]
    simp only [limit, taker_side, true_and, eq_comm]

end Processed

theorem Reflects.processed {now : Instant} {order : Order} {report : Report} {pass : Pass}
    {left : Multiset Order}
    (reflects : Reflects places side seen (order.amount.value + room) market)
    (room_nonneg : 0 ≤ room) (amount_nonneg : 0 ≤ order.amount.value) (fits : order.Fits places)
    (processes : Processes now order market report later pass left) :
    Reflects places side (seen ++ market.lost side later (.outcome (.processed report))) room
      later := by
  have live := processes.accepts.rests.live
  have fresh : order.Listed places :=
    ⟨fits.counted live, amount_nonneg, fun done => by rw [live] at done; cases done⟩
  obtain ⟨listed, completed, -⟩ :=
    processes.keeps (Pass.listed_keeps reflects.base_le) fresh reflects.listed
  have more := processes.amounts_le completed
  have small : (((later.book.orders : Multiset Order).map fun order => order.amount.value).sum +
      room) * tenTo places < Decimal.bound := by
    refine Decimal.scaled_lt ?_ reflects.small
    linarith
  refine ⟨?_, processes.formed, listed, small, ?_⟩
  · rw [processes.frame]
    exact reflects.base_le
  · rcases Side.eq_or_opposite order.side side with rfl | rfl
    · apply processes.own_view reflects.base_le reflects.formed reflects.listed fresh _
        reflects.mirrors
      intro p
      refine Decimal.scaled_lt ?_ small
      have most : standing order.side p later.book.orders ≤ _ := standing_le order.side p listed
      linarith
    · exact processes.opposing_view reflects.base_le reflects.formed reflects.listed fresh
        (reflects.standing_lt (by linarith)) reflects.mirrors

theorem Reflects.perform {action : Action} {answer : Answer}
    (reflects : Reflects places side seen
      (((Action.orders [action]).map fun order => order.amount.value).sum + room) market)
    (room_nonneg : 0 ≤ room)
    (fits : ∀ order ∈ Action.orders [action], 0 ≤ order.amount.value ∧ order.Fits places)
    (performed : market.perform action = .ok (answer, later)) :
    Reflects places side (seen ++ market.lost side later answer) room later := by
  cases action with
  | trade now order =>
      simp only [Market.perform, bind_eq_ok, return_eq_ok] at performed
      obtain ⟨⟨outcome, after⟩, traded, same⟩ := performed
      cases same
      obtain ⟨nonneg, fit⟩ := fits order (List.mem_singleton_self _)
      have room_eq : ((Action.orders [Action.trade now order]).map
          fun order => order.amount.value).sum = order.amount.value := by
        simp [Action.orders, Action.order?]
      rw [room_eq] at reflects
      cases outcome with
      | refused reason =>
          rcases trade_cases traded with ⟨_, _, _, rfl⟩ | ⟨_, _, _, processed, -⟩
          · rw [lost_of_none rfl, List.append_nil]
            exact reflects.quiet (by linarith) rfl
          · cases processed
      | processed report =>
          obtain ⟨pass, left, processes⟩ := processes_of_trade reflects.formed traded
          exact reflects.processed room_nonneg nonneg fit processes
  | cancel request =>
      simp only [Market.perform, bind_eq_ok, return_eq_ok] at performed
      obtain ⟨⟨removed, after⟩, cancelled, same⟩ := performed
      cases same
      rw [lost_of_none rfl, List.append_nil]
      have roomy : Reflects places side seen room market :=
        reflects.quiet (le_add_of_nonneg_left le_rfl) rfl
      rcases cancel_cases cancelled with ⟨rfl, rfl⟩ | ⟨order, rfl, -, removes, frame, views⟩
      · exact roomy
      · exact roomy.removed room_nonneg removes frame views
  | halt =>
      cases performed
      rw [lost_of_none rfl, List.append_nil]
      exact reflects.quiet (le_add_of_nonneg_left le_rfl) rfl
  | resume =>
      cases performed
      rw [lost_of_none rfl, List.append_nil]
      exact reflects.quiet (le_add_of_nonneg_left le_rfl) rfl
  | setReady ready =>
      cases performed
      rw [lost_of_none rfl, List.append_nil]
      exact reflects.quiet (le_add_of_nonneg_left le_rfl) rfl

/-- What the views lost over a run can be told, and after it they mirror the book, with the
room that there was beside the orders that came. -/
theorem Reflects.performAll_room {actions : List Action} {history : History}
    (room_nonneg : 0 ≤ room)
    (reflects : Reflects places side seen
      (((Action.orders actions).map fun order => order.amount.value).sum + room) market)
    (fits : ∀ order ∈ Action.orders actions, 0 ≤ order.amount.value ∧ order.Fits places)
    (run : market.performAll actions = .ok (history, later)) :
    ∃ gone, market.dropped side actions = .ok gone ∧
      Reflects places side (seen ++ gone) room later := by
  induction actions generalizing market seen history with
  | nil =>
      cases run
      exact ⟨[], rfl, by simpa [Action.orders] using reflects⟩
  | cons action rest ih =>
      obtain ⟨answer, middle, tail, performed, others, rfl⟩ := performAll_cons.mp run
      rw [Action.orders_cons, List.map_append, List.sum_append, add_assoc] at reflects
      rw [Action.orders_cons] at fits
      obtain ⟨first, fits_rest⟩ := List.forall_mem_append.mp fits
      have nonneg : 0 ≤ ((Action.orders rest).map fun order => order.amount.value).sum := by
        apply List.sum_nonneg
        intro amount member
        obtain ⟨order, inside, rfl⟩ := List.mem_map.mp member
        exact (fits_rest order inside).1
      obtain ⟨gone, told, final⟩ :=
        ih (reflects.perform (add_nonneg nonneg room_nonneg) first performed) fits_rest others
      refine ⟨market.lost side middle answer ++ gone, ?_, by rwa [← List.append_assoc]⟩
      simp only [Market.dropped, bind_eq_ok, return_eq_ok]
      exact ⟨(answer, middle), performed, gone, told, rfl⟩

theorem Reflects.performAll {actions : List Action} {history : History}
    (reflects : Reflects places side seen
      ((Action.orders actions).map fun order => order.amount.value).sum market)
    (fits : ∀ order ∈ Action.orders actions, 0 ≤ order.amount.value ∧ order.Fits places)
    (run : market.performAll actions = .ok (history, later)) :
    ∃ gone, market.dropped side actions = .ok gone ∧
      Reflects places side (seen ++ gone) 0 later :=
  performAll_room le_rfl (by rwa [add_zero]) fits run

end Reflects

end Market

section Levels
variable {places : Nat} {symbol : String} {side : Side} {p : ℚ}

theorem standing_coe (orders : List Order) :
    standing side p orders = (orders.map (Order.offers side p)).sum := by
  rw [standing, Multiset.map_coe, Multiset.sum_coe]

theorem standing_level {ladder : Ladder} (formed : ladder.WellFormed symbol side)
    {level : PriceLevel} (member : level ∈ ladder) :
    standing side level.price.value ladder.orders = (level.orders.map Order.left).sum := by
  induction ladder with
  | nil => cases member
  | cons first rest ih =>
      have near {order : Order} (inside : order ∈ first.orders) :=
        formed.placed first List.mem_cons_self order inside
      have worse := (List.pairwise_cons.mp formed.sorted).1
      rw [Ladder.orders_cons, ← Multiset.coe_add, standing_add]
      -- no order of another level has this price
      rcases List.mem_cons.mp member with rfl | later
      · have own : standing side level.price.value level.orders =
            (level.orders.map Order.left).sum := by
          rw [standing_coe]
          apply congrArg List.sum
          apply List.map_congr_left
          intro order inside
          obtain ⟨limit, side_eq, price_eq⟩ := near inside
          exact if_pos ⟨limit, side_eq, (Decimal.equiv_iff_value _ _).mp price_eq⟩
        have others : standing side level.price.value (Ladder.orders rest) = 0 := by
          apply standing_eq_zero
          intro order inside
          obtain ⟨other, known, there⟩ := Ladder.mem_orders.mp inside
          have price_eq := (formed.placed other (List.mem_cons_of_mem _ known) order there).2.2
          rw [Decimal.equiv_iff_value] at price_eq
          apply if_neg
          rintro ⟨-, -, same⟩
          exact Side.value_ne_of_better (worse other known) (same.symm.trans price_eq)
        rw [own, others, add_zero]
      · have none : standing side level.price.value first.orders = 0 := by
          apply standing_eq_zero
          intro order inside
          have price_eq := (Decimal.equiv_iff_value _ _).mp (near inside).2.2
          apply if_neg
          rintro ⟨-, -, same⟩
          exact Side.value_ne_of_better (worse level later) (price_eq.symm.trans same)
        rw [none, zero_add]
        exact ih formed.tail later

theorem standing_book {book : OrderBook} (formed : book.WellFormed symbol) :
    standing side p book.orders = standing side p (book.ladder side).orders := by
  have queue : standing side p (book.queue side) = 0 := standing_eq_zero fun order member =>
    Order.offers_of_market (formed.queues side order member).1
  rw [OrderBook.coe_orders book side, standing_add, OrderBook.ordersOf, ← Multiset.coe_add,
    standing_add, queue, Market.standing_of_side formed (Side.opposite_ne side), add_zero, add_zero]

theorem standing_pos_iff {ladder : Ladder} (formed : ladder.WellFormed symbol side)
    (exact : ∀ order ∈ ladder.orders, order.Exact places) :
    0 < standing side p ladder.orders ↔ ∃ level ∈ ladder, level.price.value = p := by
  constructor
  · intro some
    by_contra none
    push Not at none
    apply some.ne'
    apply standing_eq_zero
    intro order inside
    obtain ⟨level, known, there⟩ := Ladder.mem_orders.mp inside
    have price_eq := (Decimal.equiv_iff_value _ _).mp (formed.placed level known order there).2.2
    apply if_neg
    rintro ⟨-, -, same⟩
    exact none level known (price_eq.symm.trans same)
  · rintro ⟨level, known, rfl⟩
    rw [standing_level formed known]
    apply List.sum_pos
    · intro amount member
      obtain ⟨order, there, rfl⟩ := List.mem_map.mp member
      exact (exact order (Ladder.mem_orders.mpr ⟨level, known, there⟩)).left_pos
        (formed.rests level known order there).live
    · simpa using formed.occupied level known

theorem remainingAmount_exact {queue : OrderQueue} (exact : ∀ order ∈ queue, order.Exact places)
    (small : (queue.map Order.left).sum * tenTo places < Decimal.bound) :
    ∃ total, OrderQueue.remainingAmount queue = .ok total ∧
      total.value = (queue.map Order.left).sum := by
  -- from any sum that is reached before the last orders
  have from_sum (start : Decimal) (grid : start.OnGrid places) (nonneg : 0 ≤ start.value)
      (within : (start.value + (queue.map Order.left).sum) * tenTo places < Decimal.bound) :
      ∃ total, queue.foldlM (fun sum order => do sum.add (← order.remaining)) start = .ok total ∧
        total.value = start.value + (queue.map Order.left).sum := by
    clear small
    induction queue generalizing start with
    | nil => exact ⟨start, rfl, by simp⟩
    | cons order rest ih =>
        obtain ⟨first, others⟩ := List.forall_mem_cons.mp exact
        obtain ⟨remaining, subtracted, value, remaining_grid⟩ := first.remaining
        rw [List.map_cons, List.sum_cons] at within ⊢
        have rest_nonneg : 0 ≤ (rest.map Order.left).sum := by
          apply List.sum_nonneg
          intro amount member
          obtain ⟨other, inside, rfl⟩ := List.mem_map.mp member
          exact (others other inside).left_nonneg
        obtain ⟨sum, added, sum_value⟩ := Decimal.add_exact grid remaining_grid (by
          rw [value, abs_of_nonneg (add_nonneg nonneg first.left_nonneg)]
          refine Decimal.scaled_lt ?_ within
          linarith)
        rw [value] at sum_value
        obtain ⟨total, folded, total_value⟩ := ih others sum
          (Decimal.onGrid_of_value_add grid remaining_grid (by rw [sum_value, value]))
          (by rw [sum_value]; exact add_nonneg nonneg first.left_nonneg)
          (by rw [sum_value, add_assoc]; exact within)
        refine ⟨total, ?_, by rw [total_value, sum_value, add_assoc]⟩
        rw [List.foldlM_cons, bind_eq_ok]
        exact ⟨sum, (bind_eq_ok _ _ _).mpr ⟨remaining, subtracted, added⟩, folded⟩
  obtain ⟨total, folded, value⟩ := from_sum 0 (Decimal.onGrid_of_scale_le (Nat.zero_le places))
    Decimal.value_zero.ge (by rwa [Decimal.value_zero, zero_add])
  exact ⟨total, folded, by rw [value, Decimal.value_zero, zero_add]⟩

end Levels

/-- The depth view is exact above the best price it ever dropped. After every run of
measured orders the prices that a view lost for room can be told; at each price that
is better than all of them it has a row just where the ladder has a level, and the
row shows what the orders of the level have left. -/
theorem depth_exact_above_dropped {listing : Listing} {places : Nat} {actions : List Action}
    {history : History} {market : Market}
    (run : Market.replay listing actions = .ok (history, market))
    (measured : Measured listing places (Action.orders actions)) (side : Side) :
    ∃ dropped, (Market.ofListing listing).dropped side actions = .ok dropped ∧
      ∀ price, (∀ other ∈ dropped, side.better price other = true) →
        ((∃ row ∈ (market.depth side).rows, row.price ≈ price) ↔
          ∃ level ∈ market.book.ladder side, level.price ≈ price) ∧
        ∀ row ∈ (market.depth side).rows, row.price ≈ price →
          ∀ level ∈ market.book.ladder side, level.price ≈ price →
            ∃ total, OrderQueue.remainingAmount level.orders = .ok total ∧ row.amount ≈ total := by
  have fits : ∀ order ∈ Action.orders actions, 0 ≤ order.amount.value ∧ order.Fits places := by
    intro order member
    have nonneg := (measured.nonneg order member).1
    rw [Decimal.le_iff_value, Decimal.value_zero] at nonneg
    exact ⟨nonneg, measured.fits member⟩
  have start : Market.Reflects places side [] _ (.ofListing listing) :=
    .start listing measured.base_le measured.small
  obtain ⟨dropped, told, reflects⟩ := start.performAll fits run
  rw [List.nil_append] at reflects
  refine ⟨dropped, told, ?_⟩
  intro price better
  have formed := reflects.formed.ladders side
  have exact : ∀ order ∈ (market.book.ladder side).orders, order.Exact places := by
    intro order member
    obtain ⟨level, known, inside⟩ := Ladder.mem_orders.mp member
    exact (reflects.listed order (OrderBook.mem_orders.mpr
      ⟨side, List.mem_append_left _ member⟩)).of_limit (formed.placed level known order inside).1
  have shown := reflects.mirrors.complete price better
  rw [standing_book reflects.formed] at shown
  simp only [Decimal.equiv_iff_value]
  constructor
  · rw [← reflects.mirrors.tidy.shown_pos_iff, shown, standing_pos_iff formed exact]
  · intro row row_member row_price level level_member level_price
    have stands := standing_level formed level_member
    have inside : ∀ order ∈ level.orders, order.Exact places := fun order inside =>
      exact order (Ladder.mem_orders.mpr ⟨level, level_member, inside⟩)
    obtain ⟨total, added, value⟩ := remainingAmount_exact inside (by
      rw [← stands, ← standing_book reflects.formed]
      exact reflects.standing_lt le_rfl _)
    refine ⟨total, added, ?_⟩
    rw [value, ← stands, level_price, ← shown, ← row_price,
      DepthView.shown_of_mem reflects.mirrors.tidy.sorted row_member]

theorem sample_depth_exact : ∃ history market,
    Market.replay { Listing.named "coin" with maxDepth := 1 } History.narrowActions =
      .ok (history, market) ∧
    (Market.ofListing { Listing.named "coin" with maxDepth := 1 }).dropped .buy
      History.narrowActions = .ok [.ofParts 100 0] ∧
    (market.book.ladder .buy).map (fun level => level.price.coefficient) = [101, 100] ∧
    ((∃ row ∈ (market.depth .buy).rows, row.price ≈ Decimal.ofParts 101 0) ↔
      ∃ level ∈ market.book.ladder .buy, level.price ≈ Decimal.ofParts 101 0) := by
  have run : ∃ result,
      Market.replay { Listing.named "coin" with maxDepth := 1 } History.narrowActions = .ok result ∧
      (result.2.book.ladder .buy).map (fun level => level.price.coefficient) = [101, 100] :=
    ⟨_, rfl, by decide +kernel⟩
  have lost : (Market.ofListing { Listing.named "coin" with maxDepth := 1 }).dropped .buy
      History.narrowActions = .ok [.ofParts 100 0] := rfl
  have measured : Measured { Listing.named "coin" with maxDepth := 1 } 8
      (Action.orders History.narrowActions) := by
    refine ⟨by decide, by decide, by decide +kernel, by decide +kernel, ?_⟩
    simp only [History.narrowActions, Action.orders, List.filterMap_cons, Action.order?,
      List.filterMap_nil]
    simp [Order.limit, Decimal.value_ofParts, tenTo, Decimal.bound]
    norm_num
  obtain ⟨⟨history, market⟩, ran, prices⟩ := run
  obtain ⟨dropped, told, exact⟩ := depth_exact_above_dropped ran measured .buy
  obtain rfl : [Decimal.ofParts 100 0] = dropped := Except.ok.inj (lost.symm.trans told)
  exact ⟨history, market, ran, lost, prices,
    (exact (.ofParts 101 0) (by decide +kernel)).1⟩

section Reflected
variable {places : Nat} {side : Side} {seen : List Decimal} {room : ℚ} {market : Market}

theorem Market.Reflects.exact (reflects : Market.Reflects places side seen room market) :
    ∀ order ∈ (market.book.ladder side).orders, order.Exact places := by
  intro order member
  obtain ⟨level, known, inside⟩ := Ladder.mem_orders.mp member
  have limit := ((reflects.formed.ladders side).placed level known order inside).1
  exact (reflects.listed order (OrderBook.mem_orders.mpr
    ⟨side, List.mem_append_left _ member⟩)).of_limit limit

theorem Market.Reflects.row_small (reflects : Market.Reflects places side seen room market)
    {row : DepthRow} (member : row ∈ (market.depth side).rows) {more : ℚ} (fewer : more ≤ room) :
    row.amount.OnGrid places ∧ 0 < row.amount.value ∧
      (row.amount.value + more) * tenTo places < Decimal.bound := by
  have tidy := reflects.mirrors.tidy
  have shown := reflects.mirrors.within row.price.value
  rw [DepthView.shown_of_mem tidy.sorted member] at shown
  have most : standing side row.price.value market.book.orders ≤ _ :=
    standing_le side row.price.value reflects.listed
  refine ⟨tidy.grid row member, tidy.positive row member, ?_⟩
  exact Decimal.scaled_lt (by linarith) reflects.small

theorem Market.reflects_of_replay {listing : Listing} {actions : List Action} {history : History}
    {more : List Order} (run : Market.replay listing actions = .ok (history, market))
    (measured : Measured listing places (Action.orders actions ++ more)) (side : Side) :
    ∃ seen, market.Reflects places side seen (more.map fun order => order.amount.value).sum := by
  have fits : ∀ order ∈ Action.orders actions ++ more,
      0 ≤ order.amount.value ∧ order.Fits places := by
    intro order member
    exact ⟨Decimal.nonneg_iff.mp (measured.nonneg order member).1, measured.fits member⟩
  have small := measured.small
  rw [List.map_append, List.sum_append] at small
  have start : Market.Reflects places side [] _ (.ofListing listing) :=
    .start listing measured.base_le small
  have room_nonneg : 0 ≤ (more.map fun order => order.amount.value).sum :=
    List.sum_nonneg (List.forall_mem_map.mpr fun order member =>
      (fits order (List.mem_append_right _ member)).1)
  obtain ⟨seen, -, reflects⟩ := start.performAll_room room_nonneg
    (fun order member => fits order (List.mem_append_left _ member)) run
  exact ⟨[] ++ seen, reflects⟩

theorem Market.Reflects.remainingAmount (reflects : Market.Reflects places side seen room market)
    (room_nonneg : 0 ≤ room) {level : PriceLevel} (member : level ∈ market.book.ladder side) :
    ∃ total, OrderQueue.remainingAmount level.orders = .ok total ∧
      total.value = standing side level.price.value market.book.orders := by
  have stands := standing_level (reflects.formed.ladders side) member
  rw [← standing_book reflects.formed] at stands
  have exact : ∀ order ∈ level.orders, order.Exact places := fun order inside =>
    reflects.exact order (Ladder.mem_orders.mpr ⟨level, member, inside⟩)
  obtain ⟨total, added, value⟩ := remainingAmount_exact exact (by
    rw [← stands]
    exact reflects.standing_lt room_nonneg _)
  exact ⟨total, added, value.trans stands.symm⟩

end Reflected

/-- The depth view never overstates. After every run of measured orders each of its rows
is at the price of a level of the ladder, and shows a positive amount, at most what the
orders of that level have left. At a price that was dropped and came back it may be less. -/
theorem depth_never_overstates {listing : Listing} {places : Nat} {actions : List Action}
    {history : History} {market : Market}
    (run : Market.replay listing actions = .ok (history, market))
    (measured : Measured listing places (Action.orders actions)) (side : Side) :
    ∀ row ∈ (market.depth side).rows, 0 < row.amount ∧
      ∃ level ∈ market.book.ladder side, level.price ≈ row.price ∧
        ∃ total, OrderQueue.remainingAmount level.orders = .ok total ∧ row.amount ≤ total := by
  have fits : ∀ order ∈ Action.orders actions, 0 ≤ order.amount.value ∧ order.Fits places := by
    intro order member
    have nonneg := (measured.nonneg order member).1
    rw [Decimal.le_iff_value, Decimal.value_zero] at nonneg
    exact ⟨nonneg, measured.fits member⟩
  have start : Market.Reflects places side [] _ (.ofListing listing) :=
    .start listing measured.base_le measured.small
  obtain ⟨dropped, -, reflects⟩ := start.performAll fits run
  intro row member
  have positive := reflects.mirrors.tidy.positive row member
  have most := reflects.mirrors.within row.price.value
  rw [DepthView.shown_of_mem reflects.mirrors.tidy.sorted member] at most
  -- what the row shows stands in the book, so there is a level at its price
  have stands := positive.trans_le most
  rw [standing_book reflects.formed,
    standing_pos_iff (reflects.formed.ladders side) reflects.exact] at stands
  obtain ⟨level, known, same⟩ := stands
  obtain ⟨total, added, value⟩ := reflects.remainingAmount le_rfl known
  refine ⟨?_, level, known, (Decimal.equiv_iff_value _ _).mpr same, total, added, ?_⟩
  · rwa [Decimal.lt_iff_value, Decimal.value_zero]
  · rwa [Decimal.le_iff_value, value, same]

def History.returningActions : List Action :=
  let bid := Order.limit "low" 1 "coin" .buy (.ofParts 100 0) (.ofParts 5 0) default
  let high := { bid with number := "high", price := .ofParts 101 0, amount := .ofParts 3 0 }
  [.trade default bid, .trade default high, .cancel high.cancelRequest,
    .trade default { bid with number := "back", amount := .ofParts 2 0 }]

theorem sample_never_overstates : ∃ history market,
    Market.replay { Listing.named "coin" with maxDepth := 1 } History.returningActions =
      .ok (history, market) ∧
    ((market.depth .buy).rows.map fun row => (row.price.coefficient, row.amount.coefficient)) =
      [(100, 2)] ∧
    (market.book.ladder .buy).map (fun level => level.orders.map Order.number) =
      [["low", "back"]] ∧
    ∀ row ∈ (market.depth .buy).rows, ∃ level ∈ market.book.ladder .buy,
      ∃ total, OrderQueue.remainingAmount level.orders = .ok total ∧ row.amount ≤ total := by
  have run : ∃ result,
      Market.replay { Listing.named "coin" with maxDepth := 1 } History.returningActions =
        .ok result ∧
      ((result.2.depth .buy).rows.map fun row => (row.price.coefficient, row.amount.coefficient)) =
        [(100, 2)] ∧
      (result.2.book.ladder .buy).map (fun level => level.orders.map Order.number) =
        [["low", "back"]] :=
    ⟨_, rfl, by decide +kernel, by decide +kernel⟩
  have measured : Measured { Listing.named "coin" with maxDepth := 1 } 8
      (Action.orders History.returningActions) := by
    refine ⟨by decide, by decide, by decide +kernel, by decide +kernel, ?_⟩
    simp only [History.returningActions, Action.orders, List.filterMap_cons, Action.order?,
      List.filterMap_nil]
    simp [Order.limit, Decimal.value_ofParts, tenTo, Decimal.bound]
    norm_num
  obtain ⟨⟨history, market⟩, ran, rows, standing⟩ := run
  refine ⟨history, market, ran, rows, standing, ?_⟩
  intro row member
  obtain ⟨-, level, known, -, total, added, most⟩ :=
    depth_never_overstates ran measured .buy row member
  exact ⟨level, known, total, added, most⟩

end SpotExchange
