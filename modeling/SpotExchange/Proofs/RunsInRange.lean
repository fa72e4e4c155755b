import SpotExchange.Proofs.DepthMirror
import SpotExchange.Proofs.RoomyDepth

/-!
Runs that stay in range. When all amounts that are ever submitted, at the highest limit
price, fit the range of decimals with eight places, one volume covers the orders of the
book together with those still to come. So nothing overflows, and every action has an
answer.
-/

namespace SpotExchange

namespace Market

section Matching
variable {volume peak : ℚ} {aside : Multiset Order} {pass later : Pass} {market after : Market}
  {side : Side} {now : Instant}

section Stages
variable (range : InRange volume peak) (base : market.listing.baseScale ≤ 8)
  (quote : market.listing.quoteScale ≤ 8)
include range base quote

theorem Stage.ledger (stage : Stage now side market pass later after)
    (ledger : Pass.Ledger volume peak aside pass (market.book.ordersOf side.opposite)) :
    Pass.Ledger volume peak aside later (after.book.ordersOf side.opposite) := by
  rw [← zero_add (market.book.ordersOf side.opposite : Multiset Order)] at ledger
  have kept := ledger.cleared range base quote stage.cleared
  rwa [zero_add] at kept

variable (now) (own : pass.taker.side = side)
  (ledger : Pass.Ledger volume peak aside pass (market.book.ordersOf side.opposite))
  (formed : market.book.WellFormed market.symbol)
include own ledger formed

theorem exists_matchApportioned
    (small : ((market.book.ladder side.opposite).orders.map fun order => order.amount.value).sum *
      tenTo 8 < Decimal.bound) :
    ∃ given left, market.matchApportioned now pass = .ok (given, left) := by
  subst own
  rw [OrderBook.ordersOf, ← Multiset.coe_add] at ledger
  unfold matchApportioned
  split_ifs
  · obtain ⟨given, left, shared⟩ :=
      (ledger.drop range.peak_nonneg).exists_apportion now range base quote
        (formed.ladders _) small
    exact ⟨given, _, (bind_eq_ok _ _ _).mpr ⟨(given, left), shared, rfl⟩⟩
  · exact ⟨pass, market, rfl⟩

theorem exists_matchLadder (limit : Option Decimal) :
    ∃ swept left, market.matchLadder now limit pass = .ok (swept, left) := by
  subst own
  rw [OrderBook.ordersOf, ← Multiset.coe_add] at ledger
  unfold matchLadder
  split_ifs with stop
  · exact ⟨pass, market, rfl⟩
  · obtain ⟨swept, left, walk⟩ :=
      (ledger.drop range.peak_nonneg).exists_sweepLadder now range base quote
        limit (Bool.eq_false_iff.mpr stop) (formed.ladders _)
    exact ⟨swept, _, (bind_eq_ok _ _ _).mpr ⟨(swept, left), walk, rfl⟩⟩

theorem exists_matchQueue (limit : pass.taker.kind = .limit) :
    ∃ swept left, market.matchQueue now pass = .ok (swept, left) := by
  subst own
  rw [OrderBook.ordersOf, ← Multiset.coe_add, add_comm] at ledger
  unfold matchQueue
  split_ifs with stop
  · exact ⟨pass, market, rfl⟩
  · obtain ⟨swept, left, walk⟩ :=
      (ledger.drop range.peak_nonneg).exists_sweepQueue now range base quote
        (Bool.eq_false_iff.mpr stop)
        (fun order member => (formed.queues _ order member).2.2.live) (fun _ _ => Or.inl limit)
    exact ⟨swept, _, (bind_eq_ok _ _ _).mpr ⟨(swept, left), walk, rfl⟩⟩

omit own ledger in
theorem exists_matchOrder {order : Order}
    (ledger : Pass.Ledger volume peak aside (.start order)
      (market.book.ordersOf order.side.opposite))
    (small : ((market.book.ladder order.side.opposite).orders.map
      fun order => order.amount.value).sum * tenTo 8 < Decimal.bound) :
    ∃ later after, market.matchOrder now order = .ok (later, after) := by
  cases kind : order.kind with
  | market =>
      obtain ⟨swept, left, walked⟩ :=
        exists_matchLadder now range base quote rfl ledger formed none
      exact ⟨swept, left, by rw [matchOrder, kind]; exact walked⟩
  | limit =>
      -- each stage leaves a ledger to the next one
      obtain ⟨first, shared, apportioned⟩ :=
        exists_matchApportioned now range base quote rfl ledger formed small
      have sharing := matchApportioned_stage formed apportioned
      have ledger := sharing.ledger range base quote ledger
      have own : first.taker.side = order.side := Order.side_of_terms sharing.taker_terms
      rw [← sharing.listing_eq] at base quote
      obtain ⟨second, swept, walked⟩ := exists_matchLadder now range base quote own ledger
        sharing.formed_after (some order.price)
      have sweeping := matchLadder_stage sharing.formed_after walked
      rw [own] at sweeping
      have ledger := sweeping.ledger range base quote ledger
      have terms := sweeping.taker_terms.trans sharing.taker_terms
      rw [← sweeping.listing_eq] at base quote
      obtain ⟨later, after, queued⟩ := exists_matchQueue now range base quote
        (Order.side_of_terms terms) ledger sweeping.formed_after
        ((Order.kind_of_terms terms).trans kind)
      refine ⟨later, after, ?_⟩
      rw [matchOrder, kind]
      exact (bind_eq_ok _ _ _).mpr ⟨(first, shared), apportioned,
        (bind_eq_ok _ _ _).mpr ⟨(second, swept), walked, queued⟩⟩

end Stages

theorem Reflects.roomy {seen : List Decimal} {room more : ℚ}
    (reflects : Reflects 8 side seen room market) (fewer : more ≤ room) :
    DepthView.Roomy more (market.depth side).rows := by
  intro row member
  obtain ⟨grid, positive, small⟩ := reflects.row_small member fewer
  exact ⟨grid, positive.le, small⟩

theorem exists_rest {order : Order}
    (room : DepthView.Roomy order.amount.value (market.depth order.side).rows)
    (counted : order.Counted 8) : ∃ changed after, market.rest order = .ok (changed, after) := by
  unfold Market.rest
  cases kind : order.kind with
  | market => exact ⟨[], _, rfl⟩
  | limit =>
      obtain ⟨changed, view, inserted⟩ :=
        room.exists_insert (counted.of_exact (by simp [Order.isMarketBuy, kind]))
      exact ⟨_, _, (bind_eq_ok _ _ _).mpr ⟨(changed, view), inserted, rfl⟩⟩

theorem exists_finish {most : ℚ}
    (views : ∀ side, DepthView.Roomy pass.taker.amount.value (market.depth side).rows)
    (taken : pass.deltas.Within most) (small : most * tenTo 8 < Decimal.bound)
    (counted : pass.taker.Counted 8) (nonneg : 0 ≤ pass.taker.amount.value) :
    ∃ report after, market.finish pass = .ok (report, after) := by
  obtain ⟨changed, view, removed⟩ :=
    ((views pass.taker.side.opposite).mono nonneg).exists_removeMany taken small
  have applied : market.applyDeltas pass.taker.side.opposite pass.deltas =
      .ok (if changed then [pass.taker.side.opposite] else [],
        market.setDepth pass.taker.side.opposite view) :=
    (bind_eq_ok _ _ _).mpr ⟨(changed, view), removed, rfl⟩
  rw [finish, applied]
  by_cases done : pass.taker.isCompleted = true
  · exact ⟨_, _, if_pos done⟩
  · have own : (market.setDepth pass.taker.side.opposite view).depth pass.taker.side =
        market.depth pass.taker.side := by
      have same := BySide.get_set_opposite market.depths pass.taker.side.opposite view
      rwa [Side.opposite_opposite] at same
    have room := views pass.taker.side
    rw [← own] at room
    obtain ⟨shown, after, rested⟩ := exists_rest room counted
    exact ⟨_, after,
      (if_neg done).trans ((bind_eq_ok _ _ _).mpr ⟨(shown, after), rested, rfl⟩)⟩

end Matching

/-- A market whose orders, together with those still to come, are covered by one volume;
its views reflect its book. -/
structure Covered (volume peak : ℚ) (coming : List Order) (market : Market) : Prop where
  quote_le : market.listing.quoteScale ≤ 8
  reflects : ∀ side, ∃ seen,
    market.Reflects 8 side seen (coming.map fun order => order.amount.value).sum
  covering : Covering volume peak (market.book.orders + coming : Multiset Order)

section Covered
variable {volume peak : ℚ} {coming : List Order} {market later : Market} {action : Action}
  {answer : Answer}

theorem Covered.formed (covered : market.Covered volume peak coming) :
    market.book.WellFormed market.symbol := by
  obtain ⟨_, reflects⟩ := covered.reflects .buy
  exact reflects.formed

theorem Covered.base_le (covered : market.Covered volume peak coming) :
    market.listing.baseScale ≤ 8 := by
  obtain ⟨_, reflects⟩ := covered.reflects .buy
  exact reflects.base_le

theorem Covered.ledger {order : Order} (covered : market.Covered volume peak (order :: coming)) :
    Pass.Ledger volume peak (market.book.ordersOf order.side + coming : Multiset Order)
      (.start order) (market.book.ordersOf order.side.opposite) := by
  have covering := covered.covering
  have pool : (market.book.orders + (order :: coming : List Order) : Multiset Order) =
      order ::ₘ (market.book.ordersOf order.side.opposite +
        (market.book.ordersOf order.side + coming) : Multiset Order) := by
    rw [OrderBook.coe_orders market.book order.side, ← Multiset.cons_coe,
      ← Multiset.singleton_add, ← Multiset.singleton_add]
    abel
  rw [pool] at covering
  exact ⟨covering, fun maker member => (covered.formed.rests member).1, nofun⟩

theorem Covered.amounts_nonneg (covered : market.Covered volume peak coming) {rest : List Order}
    (fewer : rest ⊆ coming) : 0 ≤ (rest.map fun order => order.amount.value).sum :=
  List.sum_nonneg (List.forall_mem_map.mpr fun order member =>
    (covered.covering order (Multiset.mem_add.mpr (Or.inr (fewer member)))).amount_nonneg)

theorem Covered.ladder_small (covered : market.Covered volume peak coming) (side : Side) :
    ((market.book.ladder side).orders.map fun order => order.amount.value).sum * tenTo 8 <
      Decimal.bound := by
  obtain ⟨_, reflects⟩ := covered.reflects side
  refine Decimal.scaled_lt ?_ reflects.small
  have nonneg (orders : List Order) (within : orders ⊆ market.book.orders) :
      0 ≤ (orders.map fun order => order.amount.value).sum :=
    List.sum_nonneg (List.forall_mem_map.mpr fun order member =>
      (reflects.listed order (within member)).amount_nonneg)
  have queue := nonneg (market.book.queue side) fun order member =>
    OrderBook.mem_orders.mpr ⟨side, List.mem_append_right _ member⟩
  have other := nonneg (market.book.ordersOf side.opposite) fun order member =>
    OrderBook.mem_orders.mpr ⟨side.opposite, member⟩
  have later := covered.amounts_nonneg (List.Subset.refl _)
  rw [OrderBook.coe_orders market.book side, Multiset.coe_add, Multiset.map_coe,
    Multiset.sum_coe, OrderBook.ordersOf, List.map_append, List.map_append, List.sum_append,
    List.sum_append]
  linarith

variable (range : InRange volume peak)
include range

theorem exists_refusal (market : Market) {supply : ℚ} {order : Order}
    (covered : order.Covered volume peak supply) (supply_nonneg : 0 ≤ supply) :
    ∃ refusal, market.refusal? order = .ok refusal := by
  obtain ⟨remaining, left⟩ := covered.exists_remaining range supply_nonneg
  unfold refusal?
  simp only [left, bind, Except.bind]
  split_ifs <;> exact ⟨_, rfl⟩

theorem Covered.exists_trade {order : Order}
    (covered : market.Covered volume peak (order :: coming)) (now : Instant) :
    ∃ outcome later, market.trade now order = .ok (outcome, later) := by
  have own := covered.covering order (Multiset.mem_add.mpr (Or.inr List.mem_cons_self))
  obtain ⟨refusal, checked⟩ := exists_refusal range market own (totalSupply_nonneg covered.covering)
  cases refusal with
  | some reason =>
      exact ⟨.refused reason, market, (bind_eq_ok _ _ _).mpr ⟨some reason, checked, rfl⟩⟩
  | none =>
      obtain ⟨pass, after, matched⟩ := exists_matchOrder now range covered.base_le covered.quote_le
        covered.formed covered.ledger (covered.ladder_small _)
      have stage := matchOrder_stage covered.formed matched
      have ledger := stage.ledger range covered.base_le covered.quote_le covered.ledger
      have amount : pass.taker.amount = order.amount := Order.amount_of_terms stage.taker_terms
      have views : ∀ side, DepthView.Roomy pass.taker.amount.value (after.depth side).rows := by
        intro side
        obtain ⟨_, reflects⟩ := covered.reflects side
        rw [depth_congr (by rw [stage.frame]), amount]
        apply reflects.roomy
        rw [List.map_cons, List.sum_cons]
        exact le_add_of_nonneg_right (covered.amounts_nonneg (List.subset_cons_self _ _))
      obtain ⟨report, later, ended⟩ := exists_finish views ledger.taken
        (range.below (sub_le_self _ (totalSupply_nonneg ledger.covering))) ledger.taker.counted
        ledger.taker.amount_nonneg
      exact ⟨.processed report, later, (bind_eq_ok _ _ _).mpr ⟨none, checked,
        (bind_eq_ok _ _ _).mpr ⟨(pass, after), matched,
          (bind_eq_ok _ _ _).mpr ⟨(report, later), ended, rfl⟩⟩⟩⟩

theorem Covered.exists_cancel (covered : market.Covered volume peak coming)
    (request : CancelRequest) : ∃ removed later, market.cancel request = .ok (removed, later) := by
  unfold cancel
  split_ifs
  · exact ⟨none, market, rfl⟩
  cases request.kind with
  | market =>
      cases market.book.removeMarket? request.side request.number with
      | none => exact ⟨none, market, rfl⟩
      | some found => exact ⟨_, _, rfl⟩
  | limit =>
      cases found : market.book.removeLimit? request.side request.price request.number with
      | none => exact ⟨none, market, rfl⟩
      | some result =>
          obtain ⟨order, book⟩ := result
          obtain ⟨-, removes⟩ := OrderBook.removeLimit?_removes found
          have resting : order ∈ (market.book.orders + coming : Multiset Order) := by
            rw [removes.orders, Multiset.cons_add]
            exact Multiset.mem_cons_self _ _
          have own := covered.covering order resting
          obtain ⟨remaining, left⟩ :=
            own.exists_remaining range (totalSupply_nonneg covered.covering)
          obtain ⟨_, reflects⟩ := covered.reflects order.side
          obtain ⟨changed, view, removed⟩ :=
            (reflects.roomy (covered.amounts_nonneg (List.Subset.refl _))).exists_remove
              (fun limit => own.exact (by simp [Order.isMarketBuy, limit])) left
          exact ⟨_, _, (bind_eq_ok _ _ _).mpr ⟨remaining, left,
            (bind_eq_ok _ _ _).mpr ⟨(changed, view), removed, rfl⟩⟩⟩

theorem Covered.exists_perform
    (covered : market.Covered volume peak (Action.orders [action] ++ coming)) :
    ∃ answer later, market.perform action = .ok (answer, later) := by
  cases action with
  | trade now order =>
      obtain ⟨outcome, later, traded⟩ := covered.exists_trade range now
      exact ⟨_, _, (bind_eq_ok _ _ _).mpr ⟨(outcome, later), traded, rfl⟩⟩
  | cancel request =>
      obtain ⟨removed, later, cancelled⟩ := covered.exists_cancel range request
      exact ⟨_, _, (bind_eq_ok _ _ _).mpr ⟨(removed, later), cancelled, rfl⟩⟩
  | halt => exact ⟨_, _, rfl⟩
  | resume => exact ⟨_, _, rfl⟩
  | setReady ready => exact ⟨_, _, rfl⟩

theorem Covered.perform
    (covered : market.Covered volume peak (Action.orders [action] ++ coming))
    (performed : market.perform action = .ok (answer, later)) :
    later.Covered volume peak coming := by
  have peak_nonneg := range.peak_nonneg
  have covering := covered.covering
  rw [← Multiset.coe_add, ← add_assoc] at covering
  refine ⟨?_, ?_, ?_⟩
  · rw [(wellFormed_perform covered.formed performed).1]
    exact covered.quote_le
  · intro side
    obtain ⟨seen, reflects⟩ := covered.reflects side
    rw [List.map_append, List.sum_append] at reflects
    refine ⟨_, reflects.perform (covered.amounts_nonneg (List.subset_append_right _ _)) ?_
      performed⟩
    intro order member
    have own := covering order (by simp [member])
    exact ⟨own.amount_nonneg, own.fits⟩
  · rcases perform_cases covered.formed performed with
      ⟨now, order, report, pass, left, rfl, rfl, processes⟩ | ⟨_, order, -, -, removes, -⟩ |
      ⟨-, frame⟩
    · -- wherever an order of the pass is now, it was in the ledger of the pass
      have dealt : Covering volume peak
          (pass.taker ::ₘ (left + (market.book.ordersOf order.side + coming : Multiset Order))) :=
        (covered.ledger.dealings range covered.base_le covered.quote_le processes.dealings).covering
      have pool : pass.taker ::ₘ (left + (market.book.ordersOf order.side + coming)) =
          (later.book.orders + coming + report.completed : Multiset Order) := by
        rw [add_right_comm, processes.orders, ← Multiset.singleton_add, ← Multiset.singleton_add]
        abel
      rw [pool] at dealt
      exact dealt.drop peak_nonneg
    · have pool : (order ::ₘ later.book.orders + Action.orders [action] + coming : Multiset Order) =
          later.book.orders + coming + (order ::ₘ (Action.orders [action] : Multiset Order)) := by
        rw [← Multiset.singleton_add, ← Multiset.singleton_add]
        abel
      rw [removes.orders, pool] at covering
      exact covering.drop peak_nonneg
    · rw [frame]
      rw [add_right_comm] at covering
      exact covering.drop peak_nonneg

/-- A market whose orders are covered performs all actions, one after the other. -/
theorem Covered.exists_performAll {actions : List Action}
    (covered : market.Covered volume peak (Action.orders actions)) :
    ∃ history last, market.performAll actions = .ok (history, last) := by
  induction actions generalizing market with
  | nil => exact ⟨[], market, rfl⟩
  | cons action rest ih =>
      rw [Action.orders_cons] at covered
      obtain ⟨answer, middle, performed⟩ := covered.exists_perform range
      obtain ⟨history, last, others⟩ := ih (covered.perform range performed)
      exact ⟨(action, answer) :: history, last,
        performAll_cons.mpr ⟨answer, middle, history, performed, others, rfl⟩⟩

end Covered

end Market

/-- An order as it comes: nothing is filled, and its amount and its limit have no more than
eight places. -/
structure Order.Plain (order : Order) : Prop where
  unfilled : order.filledAmount ≈ 0
  unpaid : order.filledMoney ≈ 0
  amount_grid : order.amount.OnGrid 8
  amount_nonneg : 0 ≤ order.amount
  price_grid : order.kind = .limit → order.price.OnGrid 8

instance (order : Order) : Decidable order.Plain :=
  decidable_of_iff (order.filledAmount ≈ 0 ∧ order.filledMoney ≈ 0 ∧ order.amount.OnGrid 8 ∧
      0 ≤ order.amount ∧ (order.kind = .limit → order.price.OnGrid 8))
    ⟨fun ⟨unfilled, unpaid, amount_grid, nonneg, price_grid⟩ =>
        ⟨unfilled, unpaid, amount_grid, nonneg, price_grid⟩,
      fun plain => ⟨plain.unfilled, plain.unpaid, plain.amount_grid, plain.amount_nonneg,
        plain.price_grid⟩⟩

/-- The highest limit of some orders, or one if that is more. -/
def peakPrice : List Order → ℚ
  | [] => 1
  | order :: rest =>
    if order.kind = .limit then Max.max order.price.value (peakPrice rest) else peakPrice rest

section Plain
variable {order : Order} {orders : List Order} {volume peak supply : ℚ}

theorem Order.Plain.left (plain : order.Plain) : order.left = order.amount.value := by
  have unfilled := (Decimal.equiv_iff_value _ _).mp plain.unfilled
  rw [Order.left, unfilled, Decimal.value_zero, sub_zero]

theorem Order.Plain.nonneg (plain : order.Plain) : 0 ≤ order.amount.value :=
  Decimal.nonneg_iff.mp plain.amount_nonneg

theorem Order.Plain.supply_le (plain : order.Plain) : order.supply ≤ order.amount.value := by
  rw [Order.supply, plain.left]
  split_ifs
  · exact le_rfl
  · exact plain.nonneg

theorem Order.Plain.covered (plain : order.Plain) (peak_nonneg : 0 ≤ peak)
    (priced : order.kind = .limit → order.price.value ≤ peak) (within : supply ≤ volume)
    (small : order.amount.value * tenTo 8 < Decimal.bound) :
    order.Covered volume peak supply := by
  have unfilled := (Decimal.equiv_iff_value _ _).mp plain.unfilled
  have unpaid := (Decimal.equiv_iff_value _ _).mp plain.unpaid
  rw [Decimal.value_zero] at unfilled unpaid
  have scaled := mul_le_mul_of_nonneg_left within peak_nonneg
  exact
    { amount_grid := plain.amount_grid
      amount_nonneg := plain.nonneg
      small := small
      priced := fun limit => ⟨plain.price_grid limit, priced limit⟩
      filled_grid := Decimal.onGrid_of_value_zero unfilled
      filled_nonneg := unfilled.ge
      money_grid := Decimal.onGrid_of_value_zero unpaid
      money_nonneg := unpaid.ge
      left_nonneg := fun _ => plain.left.symm ▸ plain.nonneg
      filled_le := by rwa [unfilled, zero_add]
      money_le := by
        rw [unpaid]
        linarith }

theorem one_le_peakPrice (orders : List Order) : 1 ≤ peakPrice orders := by
  induction orders with
  | nil => exact le_rfl
  | cons order rest ih =>
      rw [peakPrice]
      split_ifs
      · exact ih.trans (le_max_right _ _)
      · exact ih

theorem le_peakPrice (member : order ∈ orders) (limit : order.kind = .limit) :
    order.price.value ≤ peakPrice orders := by
  induction orders with
  | nil => cases member
  | cons first rest ih =>
      rw [peakPrice]
      rcases List.mem_cons.mp member with rfl | later
      · rw [if_pos limit]
        exact le_max_left _ _
      · have most := ih later
        split_ifs
        · exact most.trans (le_max_right _ _)
        · exact most

/-- Plain orders are covered by their amounts from the start. -/
theorem Market.Covered.start {listing : Listing} (base : listing.baseScale ≤ 8)
    (quote : listing.quoteScale ≤ 8) (plain : ∀ order ∈ orders, order.Plain)
    (range : InRange (orders.map fun order => order.amount.value).sum (peakPrice orders)) :
    (Market.ofListing listing).Covered (orders.map fun order => order.amount.value).sum
      (peakPrice orders) orders := by
  have nonneg : ∀ amount ∈ orders.map fun order => order.amount.value, 0 ≤ amount :=
    List.forall_mem_map.mpr fun order member => (plain order member).nonneg
  have supply : totalSupply orders ≤ (orders.map fun order => order.amount.value).sum :=
    List.sum_le_sum fun order member => (plain order member).supply_le
  refine ⟨quote, fun side => ⟨[], .start listing base (range.below le_rfl)⟩, ?_⟩
  have empty : ((Market.ofListing listing).book.orders + orders : Multiset Order) = orders :=
    zero_add _
  rw [empty]
  intro order member
  exact (plain order member).covered range.peak_nonneg (le_peakPrice member) supply
    (range.below (List.single_le_sum nonneg _ (List.mem_map_of_mem member)))

end Plain

/-- Nothing overflows inside a stated range. Take a market whose quantities and money have
no more than eight places, with any issuance window and any room in its views, and any run
of plain orders and cancellations: when all amounts together, at the highest limit or at
one, make less than `2 ^ 96` units of the eighth place, every action has an answer. A run
would end with the first sum, difference, product or quotient that leaves the range. Only
the product of a pro-rata share may leave it, and that share is then formed quotient first. -/
theorem runs_stay_in_range {listing : Listing} {actions : List Action}
    (base : listing.baseScale ≤ 8) (quote : listing.quoteScale ≤ 8)
    (plain : ∀ order ∈ Action.orders actions, order.Plain)
    (small : ((Action.orders actions).map fun order => order.amount.value).sum *
      peakPrice (Action.orders actions) * 10 ^ 8 < 2 ^ 96) :
    ∃ history market, Market.replay listing actions = .ok (history, market) := by
  have range : InRange ((Action.orders actions).map fun order => order.amount.value).sum
      (peakPrice (Action.orders actions)) := by
    refine ⟨one_le_peakPrice _, ?_⟩
    rw [Decimal.tenTo_cast]
    norm_num [Decimal.bound] at small ⊢
    exact small
  exact (Market.Covered.start base quote plain range).exists_performAll range

def Decimal.vast (hundreds : Nat) : Decimal :=
  .ofParts (hundreds * 100000000000000) 0

def History.vastActions : List Action :=
  let bid := { sampleBid with number := "first", amount := .vast 3 }
  [.trade default bid, .trade default { bid with number := "second" },
    .trade default { bid with number := "issue", side := .sell, amount := .vast 5 }]

theorem sample_run_in_range : (Decimal.vast 5).mul (.vast 3) = .error .multiplication ∧
    ∃ history market,
      Market.replay { Listing.named "coin" with issuance := some ⟨⟨1, 0⟩, .sell⟩ }
        History.vastActions = .ok (history, market) ∧
      (History.trades history).map Trade.buyNumber = ["first", "second"] ∧
      ∀ trade ∈ History.trades history, trade.amount.value = 250000000000000 := by
  have runs : ∃ history market,
      Market.replay { Listing.named "coin" with issuance := some ⟨⟨1, 0⟩, .sell⟩ }
        History.vastActions = .ok (history, market) :=
    runs_stay_in_range (by decide) (by decide) (by decide +kernel) (by decide +kernel)
  have shares : ∃ result,
      Market.replay { Listing.named "coin" with issuance := some ⟨⟨1, 0⟩, .sell⟩ }
        History.vastActions = .ok result ∧
      (History.trades result.1).map Trade.buyNumber = ["first", "second"] ∧
      ∀ trade ∈ History.trades result.1, trade.amount.value = 250000000000000 :=
    ⟨_, rfl, by decide +kernel, by decide +kernel⟩
  obtain ⟨history, market, ran⟩ := runs
  obtain ⟨result, ran', buyers, amounts⟩ := shares
  obtain rfl := Except.ok.inj (ran.symm.trans ran')
  exact ⟨by decide +kernel, history, market, ran, buyers, amounts⟩

end SpotExchange
