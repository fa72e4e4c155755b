import SpotExchange.Proofs.Alike
import SpotExchange.Proofs.DepthMirror
import SpotExchange.Proofs.PassFrame
import SpotExchange.Proofs.RankedDepth

/-!
Placing an order and cancelling it. An order that meets nothing it can trade with comes to
rest as it is. Its own cancellation takes just that order out again, the book is what it
was, and so is each depth view that had room for the order.
-/

namespace SpotExchange

namespace OrderQueue

theorem extract?_last {order : Order} {queue : OrderQueue}
    (fresh : ∀ other ∈ queue, other.number ≠ order.number) :
    extract? order.number (queue ++ [order]) = some (order, queue) := by
  induction queue with
  | nil => simp [extract?]
  | cons first rest ih =>
      obtain ⟨different, others⟩ := List.forall_mem_cons.mp fresh
      rw [List.cons_append, extract?, if_neg different, ih others]
      rfl

end OrderQueue

namespace Ladder

theorem extract?_at {price : Decimal} {number : String} {near far : Ladder} (level : PriceLevel)
    (apart : ∀ other ∈ near, ¬ other.price ≈ price) (here : level.price ≈ price) :
    extract? price number (near ++ level :: far) =
      (OrderQueue.extract? number level.orders).map fun found =>
        (found.1, near ++ keep level found.2 far) := by
  induction near with
  | nil => rw [List.nil_append, extract?, if_pos here]; rfl
  | cons first rest ih =>
      obtain ⟨different, others⟩ := List.forall_mem_cons.mp apart
      rw [List.cons_append, extract?, if_neg different, ih others, Option.map_map]
      rfl

theorem Joined.extract? {side : Side} {order : Order} {before after : Ladder}
    (joined : Joined side order before after) (occupied : ∀ level ∈ before, level.orders ≠ [])
    (fresh : ∀ other ∈ before.orders, other.number ≠ order.number) :
    Ladder.extract? order.price order.number after = some (order, before) := by
  cases joined with
  | @level near far level ahead here =>
      have known : level ∈ near ++ level :: far := List.mem_append_right _ List.mem_cons_self
      have others : ∀ other ∈ level.orders, other.number ≠ order.number := fun other member =>
        fresh other (mem_orders.mpr ⟨level, known, member⟩)
      have apart : ∀ other ∈ near, ¬ other.price ≈ order.price := fun other member =>
        Side.not_equiv_of_better (ahead other member)
      rw [extract?_at (level.append order) apart here, PriceLevel.append,
        OrderQueue.extract?_last others, Option.map_some]
      have kept := keep_orders (occupied level known) far
      exact congrArg (fun left => some (order, near ++ left)) kept
  | @fresh near far ahead _ =>
      have apart : ∀ other ∈ near, ¬ other.price ≈ order.price := fun other member =>
        Side.not_equiv_of_better (ahead other member)
      rw [extract?_at _ apart Decimal.equiv_rfl]
      simp [OrderQueue.extract?, keep]

end Ladder

namespace OrderBook

section Sides
variable {book later : OrderBook} {order : Order} {symbol : String}

theorem eq_of_sides (side : Side) (ladder : later.ladder side = book.ladder side)
    (queue : later.queue side = book.queue side)
    (ladder' : later.ladder side.opposite = book.ladder side.opposite)
    (queue' : later.queue side.opposite = book.queue side.opposite) : later = book := by
  obtain ⟨⟨_, _⟩, ⟨_, _⟩⟩ := book
  obtain ⟨⟨_, _⟩, ⟨_, _⟩⟩ := later
  cases side <;> cases ladder <;> cases queue <;> cases ladder' <;> cases queue' <;> rfl

theorem setLadder_back (book : OrderBook) (side : Side) (ladder : Ladder) :
    (book.setLadder side ladder).setLadder side (book.ladder side) = book := by
  cases side <;> rfl

theorem setQueue_back (book : OrderBook) (side : Side) (queue : OrderQueue) :
    (book.setQueue side queue).setQueue side (book.queue side) = book := by
  cases side <;> rfl

theorem removeLimit?_addLimit (formed : book.WellFormed symbol)
    (fresh : ∀ other ∈ book.orders, other.number ≠ order.number) :
    (book.addLimit order).removeLimit? order.side order.price order.number =
      some (order, book) := by
  have ladder := formed.ladders order.side
  have others : ∀ other ∈ (book.ladder order.side).orders, other.number ≠ order.number :=
    fun other member => fresh other (mem_orders.mpr ⟨_, List.mem_append_left _ member⟩)
  rw [removeLimit?, addLimit, ladder_setLadder,
    (Ladder.joined_append order ladder.sorted).extract? ladder.occupied others, Option.map_some]
  exact congrArg (fun back => some (order, back)) (setLadder_back book order.side _)

theorem removeMarket?_addMarket (fresh : ∀ other ∈ book.orders, other.number ≠ order.number) :
    (book.addMarket order).removeMarket? order.side order.number = some (order, book) := by
  have others : ∀ other ∈ book.queue order.side, other.number ≠ order.number :=
    fun other member => fresh other (mem_orders.mpr ⟨_, List.mem_append_right _ member⟩)
  rw [removeMarket?, addMarket, queue_setQueue, OrderQueue.extract?_last others, Option.map_some]
  exact congrArg (fun back => some (order, back)) (setQueue_back book order.side _)

end Sides

end OrderBook

namespace DepthView

section Rows
variable {price amount : Decimal} {before after : List DepthRow} {row : DepthRow}

theorem removeRow_at (row : DepthRow) {left : Decimal}
    (apart : ∀ other ∈ before, ¬ other.price ≈ price) (here : row.price ≈ price)
    (subtracted : row.amount.sub amount = .ok left) :
    removeRow price amount (before ++ row :: after) = .ok (some (before ++
      if left ≤ 0 then after else { row with amount := left } :: after)) := by
  induction before with
  | nil =>
      rw [List.nil_append, removeRow, if_pos here, subtracted]
      rfl
  | cons first rest ih =>
      obtain ⟨different, others⟩ := List.forall_mem_cons.mp apart
      rw [List.cons_append, removeRow, if_neg different, ih others]
      rfl

theorem removeRow_absent {rows : List DepthRow} (apart : ∀ other ∈ rows, ¬ other.price ≈ price) :
    removeRow price amount rows = .ok none := by
  induction rows with
  | nil => rfl
  | cons first rest ih =>
      obtain ⟨different, others⟩ := List.forall_mem_cons.mp apart
      rw [removeRow, if_neg different, ih others]
      rfl

theorem alike_refl (rows : List DepthRow) : List.Forall₂ DepthRow.Alike rows rows :=
  List.forall₂_same.mpr fun _ _ => ⟨Decimal.equiv_rfl, Decimal.equiv_rfl⟩

theorem removeRow_grown {places : Nat} {side : Side} {sum : Decimal}
    (sorted : Sorted side (before ++ row :: after)) (here : row.price ≈ price)
    (row_grid : row.amount.OnGrid places) (row_pos : 0 < row.amount.value)
    (small : (row.amount.value + amount.value) * tenTo places < Decimal.bound)
    (grid : amount.OnGrid places) (positive : 0 < amount.value)
    (added : row.amount.add amount = .ok sum) :
    ∃ left, row.amount ≈ left ∧
      removeRow price amount (before ++ { row with amount := sum } :: after) =
        .ok (some (before ++ { row with amount := left } :: after)) := by
  obtain ⟨exact, equal, value⟩ := Decimal.add_exact row_grid grid (by
    rwa [abs_of_pos (add_pos row_pos positive)])
  obtain rfl : exact = sum := Except.ok.inj (equal.symm.trans added)
  have back : exact.value - amount.value = row.amount.value := by
    rw [value]
    exact add_sub_cancel_right _ _
  obtain ⟨left, subtracted, same⟩ := Decimal.sub_exact
    (Decimal.onGrid_of_value_add row_grid grid value) grid (by
      rw [back, abs_of_pos row_pos]
      exact Decimal.scaled_lt (le_add_of_nonneg_right positive.le) small)
  rw [back] at same
  have apart : ∀ other ∈ before, ¬ other.price ≈ price := fun other member => by
    have ahead := (List.pairwise_append.mp sorted).2.2 other member row List.mem_cons_self
    rw [Decimal.equiv_iff_value] at here ⊢
    exact here ▸ Side.value_ne_of_better ahead
  have more : ¬ left ≤ 0 := Decimal.not_nonpos_iff.mpr (same ▸ row_pos)
  refine ⟨left, (Decimal.equiv_iff_value _ _).mpr same.symm, ?_⟩
  rw [removeRow_at { row with amount := exact } apart here subtracted, if_neg more]

theorem removeRow_put {places : Nat} (apart : ∀ other ∈ before, ¬ other.price ≈ price)
    (grid : amount.OnGrid places) :
    removeRow price amount (before ++ ⟨price, amount⟩ :: after) = .ok (some (before ++ after)) := by
  obtain ⟨left, subtracted, same⟩ := Decimal.sub_exact grid grid (by
    rw [sub_self, abs_zero, zero_mul]
    decide +kernel)
  have nothing : left ≤ 0 := by rw [Decimal.nonpos_iff, same, sub_self]
  rw [removeRow_at ⟨price, amount⟩ apart Decimal.equiv_rfl subtracted, if_pos nothing]

/-- An amount that was added can be taken off again. It leaves the rows as they were by
value when there was a row at the price or room for one more. -/
theorem insertRow_removeRow {places room : Nat} {side : Side} {rows : List DepthRow}
    {result : Option (List DepthRow)} (sorted : Sorted side rows)
    (exact : ∀ row ∈ rows, row.amount.OnGrid places ∧ 0 < row.amount.value ∧
      (row.amount.value + amount.value) * tenTo places < Decimal.bound)
    (grid : amount.OnGrid places) (positive : 0 < amount.value)
    (inserted : insertRow side price amount room rows = .ok result) :
    ∃ back, removeRow price amount (result.getD rows) = .ok back ∧
      (rows.length < room ∨ (∃ row ∈ rows, row.price ≈ price) →
        List.Forall₂ DepthRow.Alike rows (back.getD (result.getD rows))) := by
  rcases insertRow_cases sorted inserted with ⟨before, row, after, sum, rfl, here, added, rfl⟩ |
    ⟨before, after, rfl, near, far, rfl⟩
  · obtain ⟨row_grid, row_pos, small⟩ := exact row (List.mem_append_right _ List.mem_cons_self)
    rw [← Decimal.equiv_iff_value] at here
    obtain ⟨left, same, removed⟩ :=
      removeRow_grown sorted here row_grid row_pos small grid positive added
    refine ⟨_, removed, fun _ => ?_⟩
    exact List.rel_append (alike_refl before) (.cons ⟨Decimal.equiv_rfl, same⟩ (alike_refl after))
  · have apart : ∀ other ∈ before, ¬ other.price ≈ price := fun other member =>
      Side.not_equiv_of_better (near other member)
    have none : ∀ other ∈ before ++ after, ¬ other.price ≈ price :=
      List.forall_mem_append.mpr ⟨apart, fun other member => by
        rw [Decimal.equiv_iff_value]
        exact (Side.value_ne_of_better (far other member)).symm⟩
    split_ifs with within
    · -- where there was room for the new row, none gave way for it
      obtain ⟨more, rfl⟩ := Nat.exists_eq_add_of_lt within
      have cut : (before ++ ⟨price, amount⟩ :: after).take (before.length + more + 1) =
          before ++ ⟨price, amount⟩ :: after.take more := by
        rw [add_assoc, List.take_length_add_append, List.take_succ_cons]
      rw [Option.getD_some, cut]
      refine ⟨_, removeRow_put apart grid, ?_⟩
      rintro (room | ⟨row, member, here⟩)
      · rw [List.length_append] at room
        rw [List.take_of_length_le (by omega)]
        exact alike_refl _
      · exact absurd here (none row member)
    · exact ⟨_, removeRow_absent none, fun _ => alike_refl _⟩

end Rows

theorem Ranked.remove_inserted {places maxDepth : Nat} {view middle : DepthView} {order : Order}
    {remaining : Decimal} {changed : Bool} (ranked : view.Ranked order.side maxDepth)
    (limit : order.kind = .limit) (rest : order.remaining = .ok remaining)
    (exact : ∀ row ∈ view.rows, row.amount.OnGrid places ∧ 0 < row.amount.value ∧
      (row.amount.value + remaining.value) * tenTo places < Decimal.bound)
    (grid : remaining.OnGrid places) (positive : 0 < remaining.value)
    (inserted : view.insert order = .ok (changed, middle)) :
    ∃ told last, middle.remove order remaining = .ok (told, last) ∧
      (view.rows.length < maxDepth ∨ (∃ row ∈ view.rows, row.price ≈ order.price) →
        view.Alike last) := by
  have covers : view.covers order = true := by
    simp [DepthView.covers, limit, ranked.side_eq]
  rw [DepthView.insert, if_pos covers] at inserted
  obtain ⟨left, same, putting⟩ := (bind_eq_ok _ _ _).mp inserted
  obtain rfl : remaining = left := Except.ok.inj (rest.symm.trans same)
  rw [if_neg (Decimal.not_nonpos_iff.mpr positive)] at putting
  obtain ⟨result, put, ended⟩ := (bind_eq_ok _ _ _).mp putting
  have rows : middle = { view with rows := result.getD view.rows } := by
    cases result <;> cases ended <;> rfl
  rw [ranked.side_eq, ranked.maxDepth_eq] at put
  obtain ⟨back, removed, alike⟩ := insertRow_removeRow ranked.sorted exact grid positive put
  have covered : middle.covers order = true := by
    rw [rows]
    exact covers
  rw [DepthView.remove, if_pos covered, DepthView.removeAt, rows, removed]
  cases back with
  | none => exact ⟨_, _, rfl, fun room => ⟨rfl, rfl, alike room⟩⟩
  | some last => exact ⟨_, _, rfl, fun room => ⟨rfl, rfl, alike room⟩⟩

theorem Alike.refl (view : DepthView) : view.Alike view := ⟨rfl, rfl, alike_refl view.rows⟩

end DepthView

theorem Pass.untouched_of_dealings {listing : Listing} {now : Instant} {pass later : Pass}
    {makers left : Multiset Order} (steps : Dealings listing now pass makers later left)
    (untraded : later.trades.toList = []) :
    later.taker = pass.taker ∧ later.deltas = pass.deltas := by
  induction steps with
  | refl => exact ⟨rfl, rfl⟩
  | report _ _ ih => exact ih untraded
  | deal _ _ settled _ =>
      have known := mem_trades_of_settle settled
      rw [untraded] at known
      cases known

namespace Market

section Untraded
variable {now : Instant} {market later : Market} {order : Order} {report : Report}

theorem finish_of_untraded (formed : market.book.WellFormed market.symbol)
    (traded : market.trade now order = .ok (.processed report, later))
    (untraded : report.trades = []) :
    ∃ pass : Pass, pass.taker = order ∧ pass.deltas = [] ∧ market.Accepts order ∧
      market.finish pass = .ok (report, later) := by
  rcases trade_cases traded with
    ⟨_, refused, -, -⟩ | ⟨_, pass, after, same, accepts, matched, ended⟩
  · cases refused
  cases same
  have stage := matchOrder_stage formed matched
  obtain ⟨ladder, queue⟩ := matchOrder_frames formed matched
  have none : pass.trades.toList = [] := by rw [← (finish_cases ended).1, untraded]
  obtain ⟨_, deals, -, -, -⟩ := stage.cleared
  obtain ⟨taker, deltas⟩ := Pass.untouched_of_dealings deals none
  rw [none] at ladder queue
  have book : after.book = market.book :=
    OrderBook.eq_of_sides order.side stage.own_ladder stage.own_queue
      (ladder.eq_of_no_trades (formed.ladders _).occupied) queue.eq_of_no_trades
  have unmoved : after = market := by rw [stage.frame, book]
  rw [unmoved] at ended
  exact ⟨pass, taker, deltas, accepts, ended⟩

/-- What a pass without trades changes: the order rests as it came, and is shown if it is
a limit order. -/
theorem placed_of_untraded (formed : market.book.WellFormed market.symbol)
    (traded : market.trade now order = .ok (.processed report, later))
    (untraded : report.trades = []) :
    market.Accepts order ∧
      later = { market with book := market.book.place order, depths := later.depths } ∧
      later.depth order.side.opposite = market.depth order.side.opposite ∧
      (order.kind = .market ∧ later.depth order.side = market.depth order.side ∨
        order.kind = .limit ∧ ∃ changed,
          (market.depth order.side).insert order = .ok (changed, later.depth order.side)) := by
  obtain ⟨pass, rfl, deltas, accepts, ended⟩ := finish_of_untraded formed traded untraded
  have live := accepts.rests.live
  obtain ⟨-, frame, ending⟩ := finish_cases ended
  obtain ⟨⟨_, removed⟩, own⟩ := depths_of_finish ended
  rw [deltas] at removed
  have other := (Prod.mk.inj (Except.ok.inj removed)).2.symm
  refine ⟨accepts, ?_, other, ?_⟩
  · rcases ending with ⟨done, -⟩ | ⟨-, -, -, book⟩
    · rw [live] at done
      cases done
    · rw [← book]
      exact frame
  · rcases own with ⟨⟨done, -⟩ | ⟨kind, -⟩, same⟩ | ⟨-, limit, -, inserted⟩
    · rw [live] at done
      cases done
    · exact Or.inl ⟨kind, same⟩
    · exact Or.inr ⟨limit, inserted⟩

theorem cancel_placed_market (accepts : market.Accepts order) (kind : order.kind = .market)
    (fresh : ∀ other ∈ market.book.orders, other.number ≠ order.number)
    (placed : later = { market with book := market.book.place order, depths := later.depths }) :
    later.cancel order.cancelRequest = .ok (some { order with status := .cancelled },
      { market with depths := later.depths }) := by
  have found := OrderBook.removeMarket?_addMarket fresh
  have book : later.book = market.book.addMarket order := by
    rw [placed, OrderBook.place, kind]
  have symbol : order.cancelRequest.symbol = later.symbol := by
    rw [placed]
    exact accepts.rests.symbol_eq
  rw [← book] at found
  rw [cancel, if_neg (not_not.mpr symbol)]
  simp only [Order.cancelRequest, kind, found, Order.cancel_of_open accepts.rests.live]
  rw [placed]

/-- A limit order that was placed goes out of its level again, and off the view. -/
theorem cancel_placed_limit {remaining : Decimal} {told : Bool} {view : DepthView}
    (formed : market.book.WellFormed market.symbol) (accepts : market.Accepts order)
    (kind : order.kind = .limit)
    (fresh : ∀ other ∈ market.book.orders, other.number ≠ order.number)
    (placed : later = { market with book := market.book.place order, depths := later.depths })
    (rest : order.remaining = .ok remaining)
    (removed : (later.depth order.side).remove order remaining = .ok (told, view)) :
    later.cancel order.cancelRequest = .ok (some { order with status := .cancelled },
      { market with depths := later.depths.set order.side view }) := by
  have found := OrderBook.removeLimit?_addLimit formed fresh
  have book : later.book = market.book.addLimit order := by
    rw [placed, OrderBook.place, kind]
  have symbol : order.cancelRequest.symbol = later.symbol := by
    rw [placed]
    exact accepts.rests.symbol_eq
  rw [← book] at found
  rw [cancel, if_neg (not_not.mpr symbol)]
  simp only [Order.cancelRequest, kind, found, rest, removed,
    Order.cancel_of_open accepts.rests.live, bind, Except.bind, setDepth]
  rw [placed]
  rfl

end Untraded

end Market

/-- An order that comes to a market with a number of its own and trades with nobody can be
cancelled: it is given back as it came, and the market is what it was. So are the depth
views, by value, if that of its side had a row at its price or room for one more. -/
theorem place_then_cancel {listing : Listing} {places : Nat} {actions : List Action}
    {history : History} {market later : Market} {now : Instant} {order : Order} {report : Report}
    (run : Market.replay listing actions = .ok (history, market))
    (measured : Measured listing places (Action.orders actions ++ [order]))
    (fresh : order.number ∉ market.book.orders.map Order.number)
    (traded : market.trade now order = .ok (.processed report, later))
    (untraded : report.trades = []) :
    ∃ after,
      later.cancel order.cancelRequest =
        .ok (some { order with status := .cancelled }, after) ∧
      after = { market with depths := after.depths } ∧
      ((market.depth order.side).rows.length < listing.maxDepth ∨
          (∃ row ∈ (market.depth order.side).rows, row.price ≈ order.price) →
        ∀ side, (market.depth side).Alike (after.depth side)) := by
  obtain ⟨same_listing, formed⟩ := Market.wellFormed_of_replay run
  obtain ⟨accepts, placed, other, own⟩ := Market.placed_of_untraded formed traded untraded
  have apart : ∀ resting ∈ market.book.orders, resting.number ≠ order.number :=
    fun resting member same => fresh (same ▸ List.mem_map_of_mem member)
  -- a market order waits in a queue and shows in no view
  rcases own with ⟨kind, same⟩ | ⟨kind, _, inserted⟩
  · refine ⟨_, Market.cancel_placed_market accepts kind apart placed, rfl, ?_⟩
    intro _
    refine OrderBook.forall_side order.side ?_ ?_
    · exact same ▸ .refl _
    · exact other ▸ .refl _
  · have known : order ∈ Action.orders actions ++ [order] := by simp
    have fits := measured.fits known
    have exact := (fits.counted accepts.rests.live).of_exact (by simp [Order.isMarketBuy, kind])
    obtain ⟨remaining, rest, value, grid⟩ := exact.remaining
    obtain ⟨_, reflects⟩ := Market.reflects_of_replay run measured order.side
    have ranked := Market.ranked_of_replay run order.side
    rw [same_listing] at ranked
    obtain ⟨told, view, removed, alike⟩ := ranked.remove_inserted kind rest
      (fun row member => reflects.row_small member (by simpa [value] using exact.left_le)) grid
      (value ▸ exact.left_pos accepts.rests.live) inserted
    refine ⟨_, Market.cancel_placed_limit formed accepts kind apart placed rest removed, rfl, ?_⟩
    intro room
    refine OrderBook.forall_side order.side ?_ ?_
    · change (market.depth order.side).Alike ((later.depths.set order.side view).get order.side)
      rw [BySide.get_set_same]
      exact alike room
    · change DepthView.Alike _ ((later.depths.set order.side view).get order.side.opposite)
      rw [BySide.get_set_opposite]
      exact other ▸ .refl _

theorem sample_place_then_cancel : ∃ history market report later after,
    Market.replay (.named "coin") History.narrowActions = .ok (history, market) ∧
      market.trade default History.sampleBid = .ok (.processed report, later) ∧
      ((later.depth .buy).rows.map fun row => (row.price.coefficient, row.amount.coefficient)) =
        [(101, 2), (100, 11)] ∧
      later.cancel History.sampleBid.cancelRequest =
        .ok (some { History.sampleBid with status := .cancelled }, after) ∧
      after.book = market.book ∧ (market.depth .buy).Alike (after.depth .buy) := by
  obtain ⟨history, market, report, later, run, fresh, traded, untraded, rows, room⟩ :
      ∃ history market report later,
        Market.replay (.named "coin") History.narrowActions = .ok (history, market) ∧
        History.sampleBid.number ∉ market.book.orders.map Order.number ∧
        market.trade default History.sampleBid = .ok (.processed report, later) ∧
        report.trades = [] ∧
        ((later.depth .buy).rows.map fun row => (row.price.coefficient, row.amount.coefficient)) =
          [(101, 2), (100, 11)] ∧
        ∃ row ∈ (market.depth .buy).rows, row.price ≈ History.sampleBid.price :=
    ⟨_, _, _, _, rfl, by decide +kernel, rfl, rfl, by decide +kernel, by decide +kernel⟩
  have measured : Measured (.named "coin") 8
      (Action.orders History.narrowActions ++ [History.sampleBid]) := by
    refine ⟨by decide, by decide, by decide +kernel, by decide +kernel, ?_⟩
    simp only [History.narrowActions, Action.orders, List.filterMap_cons, Action.order?,
      List.filterMap_nil]
    simp [History.sampleBid, Order.limit, Decimal.value_ofParts, tenTo, Decimal.bound]
    norm_num
  obtain ⟨after, cancelled, frame, views⟩ := place_then_cancel run measured fresh traded untraded
  exact ⟨history, market, report, later, after, run, traded, rows, cancelled, by rw [frame],
    views (Or.inr room) .buy⟩

end SpotExchange
