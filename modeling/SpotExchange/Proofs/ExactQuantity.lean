import SpotExchange.Proofs.DecimalRange
import SpotExchange.Proofs.OrderInvariant

/-!
Runs whose quantities are exact. When all amounts are multiples of one power of
ten and not too large, an order that trades a quantity is filled by that quantity
to the last digit, and it is done when nothing is left. The money of a market buy
is not a quantity and is left out here.
-/

namespace SpotExchange

namespace Order

/-- What is not filled yet, as a number. -/
def left (order : Order) : ℚ := order.amount.value - order.filledAmount.value

/-- An order of a quantity whose arithmetic is exact at some places. -/
structure Exact (places : Nat) (order : Order) : Prop where
  quantity : order.isMarketBuy = false
  amount_grid : order.amount.OnGrid places
  filled_grid : order.filledAmount.OnGrid places
  filled_nonneg : 0 ≤ order.filledAmount.value
  left_nonneg : 0 ≤ order.left
  small : order.amount.value * tenTo places < Decimal.bound

/-- An order that is exact if it asks for a quantity. -/
def Counted (places : Nat) (order : Order) : Prop :=
  order.isMarketBuy = true ∨ order.Exact places

section Exact
variable {places : Nat} {order later : Order}

theorem Exact.left_le (exact : order.Exact places) : order.left ≤ order.amount.value := by
  have filled := exact.filled_nonneg
  rw [left]
  linarith

theorem Exact.remaining (exact : order.Exact places) :
    ∃ rest, order.remaining = .ok rest ∧ rest.value = order.left ∧ rest.OnGrid places := by
  have small : |order.amount.value - order.filledAmount.value| * tenTo places < Decimal.bound := by
    rw [← left, abs_of_nonneg exact.left_nonneg]
    exact Decimal.scaled_lt exact.left_le exact.small
  obtain ⟨rest, subtracted, value⟩ :=
    Decimal.sub_exact exact.amount_grid exact.filled_grid small
  exact ⟨rest, subtracted, value,
    Decimal.onGrid_of_value_sub exact.amount_grid exact.filled_grid value⟩

theorem Exact.availableAt (exact : order.Exact places) (price : Decimal) (baseScale : Nat) :
    ∃ available, order.availableAt price baseScale = .ok available ∧
      available.value = order.left ∧ available.OnGrid places := by
  obtain ⟨rest, subtracted, value, grid⟩ := exact.remaining
  have positive : (rest.max 0).value = order.left := by
    rw [Decimal.value_max, Decimal.value_zero, value, max_eq_left exact.left_nonneg]
  refine ⟨rest.max 0, ?_, positive, ?_⟩
  · simp only [Order.availableAt, exact.quantity, Bool.false_eq_true, ↓reduceIte, subtracted]
    rfl
  · exact Decimal.onGrid_of_value (positive.trans value.symm) grid

theorem Exact.value_of_availableAt {price available : Decimal} {baseScale : Nat}
    (exact : order.Exact places) (offered : order.availableAt price baseScale = .ok available) :
    available.value = order.left := by
  obtain ⟨rest, same, value, -⟩ := exact.availableAt price baseScale
  obtain rfl : rest = available := Except.ok.inj (same.symm.trans offered)
  exact value

theorem spent_iff_left (quantity : order.isMarketBuy = false) : order.Spent ↔ order.left ≤ 0 := by
  simp only [Spent, quantity, Bool.false_eq_true, ↓reduceIte, Decimal.le_iff_value, left,
    sub_nonpos]

theorem Exact.left_pos (exact : order.Exact places) (live : order.isCompleted = false) :
    0 < order.left := by
  rw [← not_le, ← spent_iff_left exact.quantity]
  intro spent
  rw [(order.isCompleted_iff).mpr (Or.inr spent)] at live
  cases live

theorem Exact.fill {quantity money : Decimal} (exact : order.Exact places)
    (live : order.isCompleted = false) (grid : quantity.OnGrid places)
    (positive : 0 ≤ quantity.value) (within : quantity.value ≤ order.left)
    (filled : order.fill quantity money = .ok later) :
    later.Exact places ∧ later.left = order.left - quantity.value ∧
      (later.isCompleted = true ↔ later.left = 0) := by
  have nonneg := exact.filled_nonneg
  obtain ⟨added, -, terms, done, -⟩ := fill_of_open (not_terminal_of_open live) filled
  -- no order is filled beyond its amount, which is in range
  have bounded : |order.filledAmount.value + quantity.value| * tenTo places < Decimal.bound := by
    rw [abs_of_nonneg (add_nonneg nonneg positive)]
    rw [left] at within
    exact Decimal.scaled_lt (by linarith) exact.small
  obtain ⟨sum, same, value⟩ := Decimal.add_exact exact.filled_grid grid bounded
  obtain rfl : sum = later.filledAmount := Except.ok.inj (same.symm.trans added)
  have kind := (marketBuy_of_terms terms).trans exact.quantity
  have rest : later.left = order.left - quantity.value := by
    rw [left, left, amount_of_terms terms, value]
    ring
  have left_nonneg : 0 ≤ later.left := by
    rw [rest]
    linarith
  refine ⟨⟨kind, ?_, ?_, ?_, left_nonneg, ?_⟩, rest, ?_⟩
  · rw [amount_of_terms terms]
    exact exact.amount_grid
  · exact Decimal.onGrid_of_value_add exact.filled_grid grid value
  · rw [value]
    linarith
  · rw [amount_of_terms terms]
    exact exact.small
  · rw [done, spent_iff_left kind]
    exact ⟨fun none => le_antisymm none left_nonneg, le_of_eq⟩

theorem Exact.within {price quantity : Decimal} {baseScale : Nat} (exact : order.Exact places)
    (offer : ∃ available, order.availableAt price baseScale = .ok available ∧
      quantity ≤ available) : quantity.value ≤ order.left := by
  obtain ⟨available, offered, most⟩ := offer
  rwa [Decimal.le_iff_value, exact.value_of_availableAt offered] at most

theorem Counted.availableAt {price available : Decimal} {baseScale : Nat}
    (counted : order.Counted places) (fewer : baseScale ≤ places)
    (offered : order.availableAt price baseScale = .ok available) : available.OnGrid places := by
  rcases counted with money | exact
  · -- what money buys is cut to the places of a quantity
    have none : (0 : Decimal).OnGrid places := Decimal.onGrid_of_scale_le (Nat.zero_le places)
    simp only [Order.availableAt, money, ↓reduceIte] at offered
    split_ifs at offered with free
    · cases offered
      exact none
    · obtain ⟨rest, -, more⟩ := (bind_eq_ok _ _ _).mp offered
      split_ifs at more with spent
      · cases more
        exact none
      · obtain ⟨quotient, -, same⟩ := (bind_eq_ok _ _ _).mp more
        cases same
        exact Decimal.onGrid_of_scale_le
          ((Decimal.scale_truncate_le quotient baseScale).trans fewer)
  · obtain ⟨rest, same, -, grid⟩ := exact.availableAt price baseScale
    obtain rfl : rest = available := Except.ok.inj (same.symm.trans offered)
    exact grid

theorem Counted.of_exact (counted : order.Counted places) (quantity : order.isMarketBuy = false) :
    order.Exact places := by
  rcases counted with money | exact
  · rw [money] at quantity
    cases quantity
  · exact exact

end Exact

end Order

namespace Pass

section Deals
variable {places : Nat} {listing : Listing} {now : Instant}

theorem Deal.grid {taker maker : Order} {price amount money : Decimal}
    (terms : Deal listing taker maker price amount money) (fewer : listing.baseScale ≤ places)
    (taken : taker.Counted places) (given : maker.Counted places) : amount.OnGrid places := by
  rcases terms.amount_source with cut | need | available
  · exact Decimal.onGrid_of_scale_le (cut.trans fewer)
  · exact taken.availableAt fewer need
  · exact given.availableAt fewer available

theorem Deal.nonneg {taker maker : Order} {price amount money : Decimal}
    (terms : Deal listing taker maker price amount money) : 0 ≤ amount.value := by
  have positive := terms.amount_pos
  rw [Decimal.pos_iff] at positive
  exact positive.le

theorem counted_keeps (fewer : listing.baseScale ≤ places) :
    Keeps listing (Order.Counted places) := by
  intro taker maker taken given price amount money own other terms took gave
  have grid := terms.grid fewer own other
  constructor
  · rcases own with money | exact
    · exact Or.inl ((Order.marketBuy_of_terms (Order.terms_fill took)).trans money)
    · exact Or.inr
        (exact.fill terms.taker_open grid terms.nonneg (exact.within terms.within_taker) took).1
  · rcases other with money | exact
    · exact Or.inl ((Order.marketBuy_of_terms (Order.terms_fill gave)).trans money)
    · exact Or.inr
        (exact.fill terms.maker_open grid terms.nonneg (exact.within terms.within_maker) gave).1

theorem taker_of_settle {pass last : Pass} {maker filled : Order} {price amount money : Decimal}
    (fewer : listing.baseScale ≤ places) (taken : pass.taker.Exact places)
    (given : maker.Counted places) (terms : Deal listing pass.taker maker price amount money)
    (settled : pass.settle now maker price amount money = .ok (last, filled)) :
    last.taker.Exact places ∧ last.taker.left = pass.taker.left - amount.value ∧
      (last.taker.isCompleted = true ↔ last.taker.left = 0) := by
  obtain ⟨-, took, -, -, -⟩ := settle_eq_ok settled
  exact taken.fill terms.taker_open (terms.grid fewer (Or.inr taken) given) terms.nonneg
    (taken.within terms.within_taker) took

theorem dealPrice_of_terms {taker taker' : Order} (same : taker.terms = taker'.terms)
    (maker : Order) : dealPrice taker maker = dealPrice taker' maker := by
  rw [dealPrice, dealPrice, Order.price_of_terms same]

/-- A maker that a taker can deal with: open, at a price that one of them names,
and exact if it offers a quantity. -/
structure Meets (places : Nat) (taker maker : Order) : Prop where
  counted : maker.Counted places
  live : maker.isCompleted = false
  limited : taker.kind = .limit ∨ maker.kind = .limit
  priced : 0 < dealPrice taker maker

theorem Meets.of_terms {taker taker' maker : Order} (meets : Meets places taker maker)
    (same : taker.terms = taker'.terms) : Meets places taker' maker where
  counted := meets.counted
  live := meets.live
  limited := Order.kind_of_terms same ▸ meets.limited
  priced := dealPrice_of_terms same maker ▸ meets.priced

/-- A taker of a quantity and a maker trade the smaller of what is left of the
one and available of the other, when that is positive. -/
theorem meet_exact {pass met : Pass} {maker after : Order} (taken : pass.taker.Exact places)
    (live : pass.taker.isCompleted = false) (meets : Meets places pass.taker maker)
    (meeting : pass.meet listing now maker = .ok (met, after)) :
    ∃ available, maker.availableAt (dealPrice pass.taker maker) listing.baseScale = .ok available ∧
      ((Min.min pass.taker.left available.value ≤ 0 ∧ met = pass ∧ after = maker) ∨
        ∃ amount money, 0 < Min.min pass.taker.left available.value ∧
          amount.value = Min.min pass.taker.left available.value ∧
          Deal listing pass.taker maker (dealPrice pass.taker maker) amount money ∧
          pass.settle now maker (dealPrice pass.taker maker) amount money = .ok (met, after)) := by
  rcases meet_cases live meets.live meets.limited meeting with
    ⟨same, kept, free | ⟨need, available, needed, offered, nothing⟩⟩ |
    ⟨need, available, money, needed, offered, terms, settled⟩
  · have priced := meets.priced
    rw [Decimal.pos_iff] at priced
    rw [Decimal.nonpos_iff] at free
    exact absurd priced (not_lt.mpr free)
  · rw [Decimal.le_iff_value, Decimal.value_min, Decimal.value_zero,
      taken.value_of_availableAt needed] at nothing
    exact ⟨available, offered, Or.inl ⟨nothing, same, kept⟩⟩
  · have value := Decimal.value_min need available
    have positive := terms.amount_pos
    rw [Decimal.lt_iff_value, value, Decimal.value_zero,
      taken.value_of_availableAt needed] at positive
    rw [taken.value_of_availableAt needed] at value
    exact ⟨available, offered, Or.inr ⟨_, money, positive, value, terms, settled⟩⟩

theorem meet_exhausts {pass met : Pass} {maker after : Order}
    (fewer : listing.baseScale ≤ places) (taken : pass.taker.Exact places)
    (live : pass.taker.isCompleted = false) (meets : Meets places pass.taker maker)
    (quantity : maker.isMarketBuy = false)
    (meeting : pass.meet listing now maker = .ok (met, after)) :
    met.taker.isCompleted = true ∨ after.isCompleted = true := by
  have given := meets.counted.of_exact quantity
  obtain ⟨available, offered, trade⟩ := meet_exact taken live meets meeting
  rw [given.value_of_availableAt offered] at trade
  rcases trade with ⟨nothing, -, -⟩ | ⟨amount, money, -, smaller, terms, settled⟩
  · have both := lt_min (taken.left_pos live) (given.left_pos meets.live)
    exact absurd both (not_lt.mpr nothing)
  · obtain ⟨-, taker_left, taker_done⟩ := taker_of_settle fewer taken (Or.inr given) terms settled
    obtain ⟨gave, -, -, -, -⟩ := settle_eq_ok settled
    obtain ⟨-, maker_left, maker_done⟩ := given.fill terms.maker_open
      (terms.grid fewer (Or.inr taken) (Or.inr given)) terms.nonneg
      (given.within terms.within_maker) gave
    rw [taker_done, maker_done, taker_left, maker_left, smaller, sub_eq_zero, sub_eq_zero]
    rcases min_choice pass.taker.left maker.left with all | all
    · exact Or.inl all.symm
    · exact Or.inr all.symm

theorem taker_of_meet {pass met : Pass} {maker after : Order} (fewer : listing.baseScale ≤ places)
    (taken : pass.taker.Exact places) (live : pass.taker.isCompleted = false)
    (meets : Meets places pass.taker maker)
    (meeting : pass.meet listing now maker = .ok (met, after)) :
    met.taker.Exact places ∧ met.taker.terms = pass.taker.terms := by
  obtain ⟨_, -, ⟨-, rfl, -⟩ | ⟨_, _, -, -, terms, settled⟩⟩ :=
    meet_exact taken live meets meeting
  · exact ⟨taken, rfl⟩
  · obtain ⟨-, took, -, -, -⟩ := settle_eq_ok settled
    exact ⟨(taker_of_settle fewer taken meets.counted terms settled).1, Order.terms_fill took⟩

theorem sweepQueue_exhausts {pass swept : Pass} {queue kept : OrderQueue}
    (fewer : listing.baseScale ≤ places) (taken : pass.taker.Exact places)
    (live : pass.taker.isCompleted = false)
    (meets : ∀ maker ∈ queue, Meets places pass.taker maker)
    (quantities : ∀ maker ∈ queue, maker.isMarketBuy = false)
    (walk : pass.sweepQueue listing now queue = .ok (swept, kept)) :
    swept.taker.isCompleted = true ∨ kept = [] := by
  induction queue generalizing pass swept kept with
  | nil =>
      cases walk
      exact Or.inr rfl
  | cons maker rest ih =>
      obtain ⟨first_meets, rest_meets⟩ := List.forall_mem_cons.mp meets
      obtain ⟨first_quantity, rest_quantities⟩ := List.forall_mem_cons.mp quantities
      obtain ⟨met, after, told, front, meeting, fate, tail⟩ := sweepQueue_cons walk
      have exhausted := meet_exhausts fewer taken live first_meets first_quantity meeting
      obtain ⟨exact, terms⟩ := taker_of_meet fewer taken live first_meets meeting
      have taker : told.taker = met.taker := by
        rcases fate with ⟨-, rfl, -⟩ | ⟨-, rfl, -⟩ <;> rfl
      rw [← taker] at exhausted exact terms
      rcases tail with ⟨stop, rfl, -⟩ | ⟨more, others, further, rfl⟩
      · exact Or.inl stop
      · -- the taker wants more, so the maker is done and gone
        have gone : front = [] := by
          rcases fate with ⟨-, -, none⟩ | ⟨still, -, -⟩
          · exact none
          · rw [more, still] at exhausted
            simp at exhausted
        rw [gone, List.nil_append]
        exact ih exact more (fun maker member => (rest_meets maker member).of_terms terms.symm)
          rest_quantities further

theorem exact_of_cleared {pass later : Pass} {makers kept : List Order}
    (cleared : Cleared listing now pass makers later kept) (fewer : listing.baseScale ≤ places)
    (taken : pass.taker.Exact places) (given : ∀ maker ∈ makers, maker.Counted places) :
    later.taker.Exact places ∧ ∀ record ∈ kept, record.Counted places := by
  obtain ⟨done, steps, -, -, -⟩ := cleared
  obtain ⟨taker, left, -⟩ := dealings_keep (counted_keeps fewer) steps (Or.inr taken) given
  have quantity := Order.marketBuy_of_terms (dealings_terms steps).1
  refine ⟨taker.of_exact (quantity.trans taken.quantity), ?_⟩
  intro record member
  exact left record (Multiset.mem_add.mpr (Or.inl member))

theorem reaches_of_terms {taker taker' : Order} (same : taker.terms = taker'.terms)
    (limit : Option Decimal) (level : PriceLevel) :
    reaches taker limit level = reaches taker' limit level := by
  cases limit with
  | none => rfl
  | some limit =>
      change taker.side.crosses limit level.price = taker'.side.crosses limit level.price
      rw [Order.side_of_terms same]

theorem not_reaches_of_sorted {taker : Order} {limit : Option Decimal} {level : PriceLevel}
    {rest : Ladder} (sorted : (level :: rest).Pairwise fun near far =>
      taker.side.opposite.better near.price far.price = true)
    (beyond : reaches taker limit level = false) :
    ∀ other ∈ level :: rest, reaches taker limit other = false := by
  intro other member
  cases limit with
  | none => cases beyond
  | some limit =>
      rcases List.mem_cons.mp member with rfl | behind
      · exact beyond
      · exact Bool.eq_false_iff.mpr (Side.not_crosses_of_better (Bool.eq_false_iff.mp beyond)
          ((List.pairwise_cons.mp sorted).1 other behind))

theorem meets_of_placed {symbol : String} {side : Side} {ladder : Ladder}
    (formed : ladder.WellFormed symbol side)
    (given : ∀ maker ∈ ladder.orders, maker.Counted places) (taker : Order) {maker : Order}
    (member : maker ∈ ladder.orders) :
    Meets places taker maker ∧ maker.isMarketBuy = false := by
  obtain ⟨level, known, inside⟩ := Ladder.mem_orders.mp member
  obtain ⟨limit, -, near⟩ := formed.placed level known maker inside
  have priced := formed.price_pos level known
  rw [Decimal.equiv_iff_value] at near
  rw [Decimal.lt_iff_value, ← near, ← Decimal.lt_iff_value] at priced
  refine ⟨⟨given maker member, (formed.rests level known maker inside).live, Or.inr limit, ?_⟩,
    by simp [Order.isMarketBuy, limit]⟩
  rwa [dealPrice, limit]

theorem meets_of_waiting {symbol : String} {side : Side} {queue : OrderQueue}
    (formed : queue.WellFormed symbol side)
    (given : ∀ maker ∈ queue, maker.Counted places) {taker : Order} (limit : taker.kind = .limit)
    (priced : 0 < taker.price) {maker : Order} (member : maker ∈ queue) :
    Meets places taker maker := by
  obtain ⟨market, -, rests⟩ := formed maker member
  refine ⟨given maker member, rests.live, Or.inl limit, ?_⟩
  rwa [dealPrice, market]

/-- A walk over a ladder goes on until the taker is done or no level within its
limit is left. -/
theorem sweepLadder_exhausts {pass swept : Pass} {limit : Option Decimal} {symbol : String}
    {ladder left : Ladder} (fewer : listing.baseScale ≤ places) (taken : pass.taker.Exact places)
    (formed : ladder.WellFormed symbol pass.taker.side.opposite)
    (given : ∀ maker ∈ ladder.orders, maker.Counted places)
    (live : pass.taker.isCompleted = false)
    (walk : pass.sweepLadder listing now limit ladder = .ok (swept, left)) :
    swept.taker.isCompleted = true ∨ ∀ level ∈ left, reaches pass.taker limit level = false := by
  induction ladder generalizing pass swept left with
  | nil =>
      cases walk
      exact Or.inr fun _ member => nomatch member
  | cons level rest ih =>
      rcases sweepLadder_cons walk with ⟨beyond, rfl, rfl⟩ | ⟨-, met, orders, queue, tail⟩
      · exact Or.inr (not_reaches_of_sorted formed.sorted beyond)
      · have makers := fun maker (member : maker ∈ level.orders) =>
          meets_of_placed formed given pass.taker
            (Ladder.mem_orders.mpr ⟨level, List.mem_cons_self, member⟩)
        have meets := fun maker member => (makers maker member).1
        have exhausted := sweepQueue_exhausts fewer taken live meets
          (fun maker member => (makers maker member).2) queue
        rw [Ladder.orders_cons] at given
        obtain ⟨near, far⟩ := List.forall_mem_append.mp given
        -- the walk ends at a level that keeps orders, where the taker must be done
        rcases tail with ⟨some | done, rfl, rfl⟩ | ⟨rfl, more, further⟩
        · exact Or.inl (exhausted.resolve_right some)
        · exact Or.inl done
        · obtain ⟨cleared, -⟩ := sweepQueue_cleared live
            (fun maker member => (meets maker member).live)
            (fun maker member => (meets maker member).limited) queue
          obtain ⟨exact, -⟩ := exact_of_cleared cleared fewer taken near
          obtain ⟨_, steps, -, -, -⟩ := cleared
          have terms := (dealings_terms steps).1
          have behind := formed.tail
          rw [← Order.side_of_terms terms] at behind
          simpa only [reaches_of_terms terms] using ih exact behind far more further

end Deals

end Pass

namespace Market

theorem exact_of_stage {places : Nat} {now : Instant} {side : Side} {market after : Market}
    {pass later : Pass} (stage : Stage now side market pass later after)
    (fewer : market.listing.baseScale ≤ places) (taken : pass.taker.Exact places)
    (given : ∀ maker ∈ market.book.ordersOf side.opposite, maker.Counted places) :
    later.taker.Exact places ∧
      ∀ maker ∈ after.book.ordersOf side.opposite, maker.Counted places :=
  Pass.exact_of_cleared stage.cleared fewer taken given

end Market

theorem Ladder.exists_total {places : Nat} {ladder : Ladder}
    (grid : ∀ order ∈ ladder.orders, order.amount.OnGrid places)
    (nonneg : ∀ order ∈ ladder.orders, 0 ≤ order.amount.value)
    (small : (ladder.orders.map fun order => order.amount.value).sum * tenTo places <
      Decimal.bound) :
    ∃ totals total, ladder.mapM (fun level => OrderQueue.totalAmount level.orders) = .ok totals ∧
      Decimal.sum totals = .ok total ∧
      total.value = (ladder.orders.map fun order => order.amount.value).sum := by
  obtain ⟨totals, mapped, totals_grid, totals_nonneg, same⟩ : ∃ totals,
      ladder.mapM (fun level => OrderQueue.totalAmount level.orders) = .ok totals ∧
      (∀ total ∈ totals, total.OnGrid places) ∧ (∀ total ∈ totals, 0 ≤ total.value) ∧
      (totals.map Decimal.value).sum = (ladder.orders.map fun order => order.amount.value).sum := by
    -- the sum of one level is in range, as it is part of that of all of them
    induction ladder with
    | nil => exact ⟨[], rfl, by simp, by simp, rfl⟩
    | cons level rest ih =>
        rw [Ladder.orders_cons] at grid nonneg small ⊢
        obtain ⟨first_grid, rest_grid⟩ := List.forall_mem_append.mp grid
        obtain ⟨first_nonneg, rest_nonneg⟩ := List.forall_mem_append.mp nonneg
        have sum_nonneg {orders : List Order} (each : ∀ order ∈ orders, 0 ≤ order.amount.value) :
            0 ≤ (orders.map fun order => order.amount.value).sum :=
          List.sum_nonneg (List.forall_mem_map.mpr each)
        rw [List.map_append, List.sum_append] at small ⊢
        obtain ⟨total, added, value, total_grid⟩ := Decimal.sum_exact
          (List.forall_mem_map.mpr first_grid) (List.forall_mem_map.mpr first_nonneg) (by
            rw [List.map_map]
            exact Decimal.scaled_lt (le_add_of_nonneg_right (sum_nonneg rest_nonneg)) small)
        obtain ⟨totals, mapped, totals_grid, totals_nonneg, same⟩ := ih rest_grid rest_nonneg
          (Decimal.scaled_lt (le_add_of_nonneg_left (sum_nonneg first_nonneg)) small)
        rw [List.map_map] at value
        refine ⟨total :: totals, ?_, List.forall_mem_cons.mpr ⟨total_grid, totals_grid⟩,
          List.forall_mem_cons.mpr ⟨?_, totals_nonneg⟩, ?_⟩
        · rw [List.mapM_cons, mapped]
          simp only [OrderQueue.totalAmount, added, bind, Except.bind]
          rfl
        · rw [value]
          exact sum_nonneg first_nonneg
        · rw [List.map_cons, List.sum_cons, value, same]
          rfl
  rw [← same] at small ⊢
  obtain ⟨total, added, value, -⟩ := Decimal.sum_exact totals_grid totals_nonneg small
  exact ⟨totals, total, mapped, added, value⟩

/-- An order as it may be submitted for its arithmetic to be exact. -/
structure Order.Fits (places : Nat) (order : Order) : Prop where
  amount_grid : order.amount.OnGrid places
  filled_grid : order.filledAmount.OnGrid places
  filled_nonneg : 0 ≤ order.filledAmount.value
  small : order.amount.value * tenTo places < Decimal.bound

theorem Order.Fits.counted {places : Nat} {order : Order} (fits : order.Fits places)
    (live : order.isCompleted = false) : order.Counted places := by
  cases quantity : order.isMarketBuy with
  | true => exact Or.inl quantity
  | false =>
      have unspent : ¬ order.Spent := by
        intro spent
        rw [order.isCompleted_iff.mpr (Or.inr spent)] at live
        cases live
      rw [Order.spent_iff_left quantity, not_le] at unspent
      exact Or.inr ⟨quantity, fits.amount_grid, fits.filled_grid, fits.filled_nonneg,
        unspent.le, fits.small⟩

/-- Orders whose quantities are multiples of `10 ^ -places`, with no fewer places
than a listing cuts quantities to, and together in the range of decimals. -/
structure Measured (listing : Listing) (places : Nat) (orders : List Order) : Prop where
  base_le : listing.baseScale ≤ places
  places_le : places ≤ 28
  grid : ∀ order ∈ orders, order.amount.OnGrid places ∧ order.filledAmount.OnGrid places
  nonneg : ∀ order ∈ orders, 0 ≤ order.amount ∧ 0 ≤ order.filledAmount
  small : (orders.map fun order => order.amount.value).sum * tenTo places < Decimal.bound

theorem Measured.fits {listing : Listing} {places : Nat} {orders : List Order}
    (measured : Measured listing places orders) {order : Order} (member : order ∈ orders) :
    order.Fits places := by
  obtain ⟨amount_grid, filled_grid⟩ := measured.grid order member
  have nonneg : ∀ amount ∈ orders.map fun order => order.amount.value, 0 ≤ amount := by
    intro amount known
    obtain ⟨other, inside, rfl⟩ := List.mem_map.mp known
    have least := (measured.nonneg other inside).1
    rwa [Decimal.nonneg_iff] at least
  have filled := (measured.nonneg order member).2
  rw [Decimal.nonneg_iff] at filled
  have most := List.single_le_sum nonneg _ (List.mem_map_of_mem member)
  refine ⟨amount_grid, filled_grid, filled, ?_⟩
  exact Decimal.scaled_lt most measured.small

theorem Measured.tail {listing : Listing} {places : Nat} {order : Order} {orders : List Order}
    (measured : Measured listing places (order :: orders)) : Measured listing places orders where
  base_le := measured.base_le
  places_le := measured.places_le
  grid := fun other member => measured.grid other (List.mem_cons_of_mem _ member)
  nonneg := fun other member => measured.nonneg other (List.mem_cons_of_mem _ member)
  small := by
    have whole := measured.small
    have nonneg := Decimal.nonneg_iff.mp (measured.nonneg order List.mem_cons_self).1
    rw [List.map_cons, List.sum_cons] at whole
    exact Decimal.scaled_lt (le_add_of_nonneg_left nonneg) whole

theorem Measured.perm {listing : Listing} {places : Nat} {orders others : List Order}
    (measured : Measured listing places orders) (same : others.Perm orders) :
    Measured listing places others where
  base_le := measured.base_le
  places_le := measured.places_le
  grid := fun order member => measured.grid order (same.mem_iff.mp member)
  nonneg := fun order member => measured.nonneg order (same.mem_iff.mp member)
  small := by
    rw [(same.map _).sum_eq]
    exact measured.small

/-- In a run of orders that fit, the arithmetic of every resting order is exact;
what holds of an empty market and is kept by every action on exact orders holds
after the run. -/
theorem fitting_induction {listing : Listing} {places : Nat} {motive : Market → Prop}
    (fewer : listing.baseScale ≤ places) (start : motive (.ofListing listing))
    (step : ∀ {market later : Market} {action : Action} {answer : Answer},
      market.listing = listing → market.book.WellFormed market.symbol →
        (∀ order ∈ market.book.orders, order.Counted places) →
        (∀ order ∈ Action.orders [action], order.Fits places) → motive market →
        market.perform action = .ok (answer, later) → motive later)
    {actions : List Action} {history : History} {market : Market}
    (run : Market.replay listing actions = .ok (history, market))
    (fits : ∀ order ∈ Action.orders actions, order.Fits places) :
    (∀ order ∈ market.book.orders, order.Counted places) ∧ motive market := by
  have kept := Market.replay_induction (motive := fun history market =>
    (∀ order ∈ History.submitted history, order.Fits places) → market.listing = listing ∧
      History.Holds listing (Order.Counted places) history market ∧ motive market)
    ?_ ?_ run
  · rw [Market.submitted_of_replay run] at kept
    exact (kept fits).2.imp_left History.Holds.resting
  · exact fun _ => ⟨rfl, .start listing _, start⟩
  · intro history before later action answer formed kept performed fits
    rw [History.submitted_append] at fits
    obtain ⟨earlier, last⟩ := List.forall_mem_append.mp fits
    obtain ⟨same, counted, held⟩ := kept earlier
    exact ⟨(Market.wellFormed_perform formed performed).1.trans same,
      counted.perform (Pass.counted_keeps (same ▸ fewer)) same formed
        (fun order member => (last order member).counted) performed,
      step same formed counted.resting last held performed⟩

theorem counted_of_replay {listing : Listing} {places : Nat} {actions : List Action}
    {history : History} {market : Market} (fewer : listing.baseScale ≤ places)
    (run : Market.replay listing actions = .ok (history, market))
    (fits : ∀ order ∈ Action.orders actions, order.Fits places) :
    ∀ order ∈ market.book.orders, order.Counted places :=
  (fitting_induction (motive := fun _ => True) fewer trivial
    (fun _ _ _ _ _ _ => trivial) run fits).1

end SpotExchange
