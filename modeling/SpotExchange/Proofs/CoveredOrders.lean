import SpotExchange.Proofs.DecimalRange
import SpotExchange.Proofs.ExactQuantity

/-!
Orders whose figures stay in range. What orders have filled so far and what others still
have to sell come to no more than a volume that was submitted, and the money paid is in
proportion. Every trade takes from what is for sale as much as it adds to the orders that
make it, at least one unit of the eighth place, and this pays for all rounding.
-/

namespace SpotExchange

/-- A volume of quantities and a highest price, at least one, whose product is in range
at eight places. -/
structure InRange (volume peak : ℚ) : Prop where
  unit : 1 ≤ peak
  small : volume * peak * tenTo 8 < Decimal.bound

section InRange
variable {volume peak most : ℚ}

theorem InRange.peak_nonneg (range : InRange volume peak) : 0 ≤ peak :=
  zero_le_one.trans range.unit

theorem InRange.below (range : InRange volume peak) (within : most ≤ volume) :
    most * tenTo 8 < Decimal.bound := by
  rcases le_total 0 volume with nonneg | negative
  · have unscaled := Decimal.scaled_lt (le_mul_of_one_le_right nonneg range.unit) range.small
    exact Decimal.scaled_lt within unscaled
  · have least := within.trans negative
    have scaled := mul_nonpos_of_nonpos_of_nonneg least (Decimal.tenTo_pos_rat 8).le
    exact scaled.trans_lt (by norm_num [Decimal.bound])

end InRange

namespace Order

/-- What an order has to sell. -/
def supply (order : Order) : ℚ := if order.side = .sell then order.left else 0

/-- An order that is covered by a volume: what it has filled is part of that volume, and
so is, beside it, what is for sale. -/
structure Covered (volume peak supply : ℚ) (order : Order) : Prop where
  amount_grid : order.amount.OnGrid 8
  amount_nonneg : 0 ≤ order.amount.value
  small : order.amount.value * tenTo 8 < Decimal.bound
  priced : order.kind = .limit → order.price.OnGrid 8 ∧ order.price.value ≤ peak
  filled_grid : order.filledAmount.OnGrid 8
  filled_nonneg : 0 ≤ order.filledAmount.value
  money_grid : order.filledMoney.OnGrid 8
  money_nonneg : 0 ≤ order.filledMoney.value
  left_nonneg : order.isMarketBuy = false → 0 ≤ order.left
  filled_le : order.filledAmount.value + supply ≤ volume
  money_le : order.filledMoney.value + 7 * peak * supply ≤ 7 * peak * volume

section Covered
variable {volume peak supply : ℚ} {order : Order}

theorem Covered.exact (covered : order.Covered volume peak supply)
    (quantity : order.isMarketBuy = false) : order.Exact 8 :=
  ⟨quantity, covered.amount_grid, covered.filled_grid, covered.filled_nonneg,
    covered.left_nonneg quantity, covered.small⟩

theorem Covered.counted (covered : order.Covered volume peak supply) : order.Counted 8 := by
  cases quantity : order.isMarketBuy with
  | true => exact Or.inl quantity
  | false => exact Or.inr (covered.exact quantity)

theorem Covered.weaken {volume' supply' : ℚ} (covered : order.Covered volume peak supply)
    (peak_nonneg : 0 ≤ peak) (more : supply' + volume ≤ supply + volume') :
    order.Covered volume' peak supply' := by
  have filled := covered.filled_le
  have money := covered.money_le
  have scaled := mul_le_mul_of_nonneg_left more peak_nonneg
  exact { covered with
    filled_le := by linarith
    money_le := by linarith }

theorem Covered.exists_remaining (covered : order.Covered volume peak supply)
    (range : InRange volume peak) (supply_nonneg : 0 ≤ supply) :
    ∃ remaining, order.remaining = .ok remaining := by
  have filled := covered.filled_le
  have filled_nonneg := covered.filled_nonneg
  obtain ⟨remaining, subtracted, -⟩ := Decimal.sub_small covered.amount_grid covered.filled_grid
    covered.amount_nonneg filled_nonneg covered.small (range.below (by linarith))
  exact ⟨remaining, subtracted⟩

theorem Covered.fits (covered : order.Covered volume peak supply) : order.Fits 8 :=
  ⟨covered.amount_grid, covered.filled_grid, covered.filled_nonneg, covered.small⟩

theorem not_marketBuy_of_sell (sell : order.side = .sell) : order.isMarketBuy = false := by
  simp [isMarketBuy, sell]

theorem Covered.supply_nonneg (covered : order.Covered volume peak supply) : 0 ≤ order.supply := by
  unfold Order.supply
  split_ifs with sell
  · exact covered.left_nonneg (not_marketBuy_of_sell sell)
  · exact le_rfl

theorem Covered.exists_availableAt (covered : order.Covered volume peak supply)
    (live : order.isCompleted = false) {price : Decimal} (grid : price.OnGrid 8)
    (positive : 0 < price.value) (baseScale : Nat) :
    ∃ available, order.availableAt price baseScale = .ok available := by
  cases buys : order.isMarketBuy with
  | false =>
      obtain ⟨available, offered, -⟩ := (covered.exact buys).availableAt price baseScale
      exact ⟨available, offered⟩
  | true =>
      have unspent : order.filledMoney.value < order.amount.value := by
        by_contra spent
        rw [not_lt, ← Decimal.le_iff_value] at spent
        simp [isCompleted, buys, spent] at live
      have money_nonneg := covered.money_nonneg
      obtain ⟨left, subtracted, left_value⟩ := Decimal.sub_small covered.amount_grid
        covered.money_grid covered.amount_nonneg money_nonneg covered.small
        (Decimal.scaled_lt unspent.le covered.small)
      obtain ⟨units, amount_units⟩ := (Decimal.onGrid_iff 8 _).mp covered.amount_grid
      -- below the bound and on the grid, the amount is a whole unit below it
      have whole : order.amount.value * 10 ^ 8 ≤ Decimal.bound - 1 := by
        have small := covered.small
        rw [amount_units] at small
        have last : units ≤ (Decimal.bound : Int) - 1 := by
          have below : units < (Decimal.bound : Int) := by exact_mod_cast small
          omega
        rw [Decimal.tenTo_cast] at amount_units
        rw [amount_units]
        exact_mod_cast last
      -- even at a price of one unit the quotient is no more than the units of the amount
      have unit : 1 ≤ price.value * 10 ^ 8 := Decimal.unit_le_of_onGrid grid positive
      have most : left.value / price.value ≤ Decimal.bound - 1 := by
        rw [div_le_iff₀ positive]
        have scaled := mul_le_mul_of_nonneg_left unit
          (show (0 : ℚ) ≤ Decimal.bound - 1 by norm_num [Decimal.bound])
        linarith
      have ratio_nonneg : 0 ≤ left.value / price.value := by
        rw [left_value]
        exact div_nonneg (by linarith) positive.le
      obtain ⟨quotient, divided⟩ := Decimal.exists_div positive.ne' (show
        |left.value / price.value| + 1 / 2 < Decimal.bound by
          rw [abs_of_nonneg ratio_nonneg]
          linarith)
      simp only [availableAt, buys, ↓reduceIte, subtracted]
      split_ifs
      · exact ⟨0, rfl⟩
      · simp only [bind, Except.bind, divided]
        split_ifs
        · exact ⟨0, rfl⟩
        · exact ⟨_, rfl⟩

/-- An open order takes a trade: of what is for sale at least as much goes as it adds, and
that covers what is added to the order, with all that is rounded in its money. -/
theorem Covered.exists_fill (covered : order.Covered volume peak supply)
    (range : InRange volume peak) (opened : order.status.isTerminal = false)
    {quantity money : Decimal} (grid : quantity.OnGrid 8) (positive : 0 < quantity.value)
    (fewer : quantity.value ≤ supply)
    (within : order.isMarketBuy = false → quantity.value ≤ order.left)
    (money_grid : money.OnGrid 8) (money_nonneg : 0 ≤ money.value)
    (charge : money.value ≤ 2 * (peak * quantity.value)) :
    ∃ later, order.fill quantity money = .ok later ∧ later.terms = order.terms ∧
      later.left = order.left - quantity.value ∧
      later.Covered volume peak (supply - quantity.value) := by
  have filled_nonneg := covered.filled_nonneg
  have filled_le := covered.filled_le
  have paid_le := covered.money_le
  have unit := range.unit
  have peak_nonneg := range.peak_nonneg
  have volume_nonneg : 0 ≤ volume := by linarith
  have small := range.small
  rw [Decimal.tenTo_cast] at small
  -- in these products the bounds on both sums are linear
  have scaled := mul_le_mul_of_nonneg_left unit volume_nonneg
  have product := mul_le_mul_of_nonneg_left fewer peak_nonneg
  have least := Decimal.unit_le_of_onGrid grid positive
  have rounding := mul_le_mul_of_nonneg_right unit positive.le
  have nothing := mul_nonneg peak_nonneg positive.le
  obtain ⟨filled, added, filled_value⟩ := Decimal.add_exact covered.filled_grid grid (by
    rw [abs_of_nonneg (add_nonneg filled_nonneg positive.le), Decimal.tenTo_cast]
    linarith)
  obtain ⟨paid, counted, paid_grid, paid_nonneg, paid_most⟩ :=
    Decimal.add_near covered.money_grid money_grid covered.money_nonneg money_nonneg (by
      norm_num [Decimal.bound] at small ⊢
      linarith)
  obtain ⟨status, settled, -⟩ :=
    settleStatus_of_open { order with filledAmount := filled, filledMoney := paid } opened
  refine ⟨{ order with filledAmount := filled, filledMoney := paid, status }, ?_, rfl, ?_, ?_⟩
  · simp only [Order.fill, opened, Bool.false_eq_true, ↓reduceIte, added, counted]
    exact congrArg Except.ok settled
  · simp only [left, filled_value]
    ring
  · exact { covered with
      filled_grid := Decimal.onGrid_of_value_add covered.filled_grid grid filled_value
      filled_nonneg := by
        rw [filled_value]
        linarith
      money_grid := paid_grid
      money_nonneg := paid_nonneg
      left_nonneg := by
        intro quantity_kind
        have enough := within quantity_kind
        simp only [left, filled_value] at enough ⊢
        linarith
      filled_le := by
        rw [filled_value]
        linarith
      money_le := by
        simp only
        norm_num at paid_most
        linarith }

end Covered

end Order

def totalSupply (orders : Multiset Order) : ℚ := (orders.map Order.supply).sum

/-- Orders that one volume covers, beside what they have to sell together. -/
def Covering (volume peak : ℚ) (orders : Multiset Order) : Prop :=
  ∀ order ∈ orders, order.Covered volume peak (totalSupply orders)

section Covering
variable {volume peak supply : ℚ} {orders kept gone rest : Multiset Order} {taker maker : Order}
  {listing : Listing} {price amount money : Decimal}

@[simp] theorem totalSupply_cons (order : Order) (orders : Multiset Order) :
    totalSupply (order ::ₘ orders) = order.supply + totalSupply orders := by
  simp [totalSupply]

@[simp] theorem totalSupply_add (first second : Multiset Order) :
    totalSupply (first + second) = totalSupply first + totalSupply second := by
  simp [totalSupply]

theorem totalSupply_nonneg (covered : ∀ order ∈ orders, order.Covered volume peak supply) :
    0 ≤ totalSupply orders := by
  apply Multiset.sum_nonneg
  intro amount member
  obtain ⟨order, inside, rfl⟩ := Multiset.mem_map.mp member
  exact (covered order inside).supply_nonneg

theorem Covering.drop (covering : Covering volume peak (kept + gone)) (peak_nonneg : 0 ≤ peak) :
    Covering volume peak kept := by
  intro order member
  have left := totalSupply_nonneg fun order inside =>
    covering order (Multiset.mem_add.mpr (Or.inr inside))
  apply (covering order (Multiset.mem_add.mpr (Or.inl member))).weaken peak_nonneg
  rw [totalSupply_add]
  linarith

theorem Covering.supply_le (covering : Covering volume peak orders) {order : Order}
    (member : order ∈ orders) : totalSupply orders ≤ volume := by
  have filled := (covering order member).filled_le
  have nonneg := (covering order member).filled_nonneg
  linarith

theorem Covering.amount_le {baseScale : Nat}
    (covering : Covering volume peak (taker ::ₘ maker ::ₘ rest))
    (sides : maker.side = taker.side.opposite)
    (needed : ∃ need, taker.availableAt price baseScale = .ok need ∧ amount ≤ need)
    (offered : ∃ available, maker.availableAt price baseScale = .ok available ∧
      amount ≤ available) : amount.value ≤ totalSupply (taker ::ₘ maker ::ₘ rest) := by
  have taken := covering taker (Multiset.mem_cons_self _ _)
  have given := covering maker (by simp)
  have others : 0 ≤ totalSupply rest := totalSupply_nonneg fun order member =>
    covering order (by simp [member])
  have taker_nonneg := taken.supply_nonneg
  have maker_nonneg := given.supply_nonneg
  rw [totalSupply_cons, totalSupply_cons]
  cases side : taker.side with
  | sell =>
      have most := (taken.exact (Order.not_marketBuy_of_sell side)).within needed
      have own : taker.supply = taker.left := if_pos side
      linarith
  | buy =>
      have sells : maker.side = .sell := by rw [sides, side]; rfl
      have most := (given.exact (Order.not_marketBuy_of_sell sells)).within offered
      have own : maker.supply = maker.left := if_pos sells
      linarith

theorem dealPrice_priced (taken : taker.Covered volume peak supply)
    (given : maker.Covered volume peak supply)
    (limited : taker.kind = .limit ∨ maker.kind = .limit) :
    (Pass.dealPrice taker maker).OnGrid 8 ∧ (Pass.dealPrice taker maker).value ≤ peak := by
  unfold Pass.dealPrice
  cases kind : maker.kind with
  | limit => exact given.priced kind
  | market => exact taken.priced (limited.resolve_right (by simp [kind]))

/-- Both orders of a deal take it, and all stay covered. -/
theorem Covering.deal (covering : Covering volume peak (taker ::ₘ maker ::ₘ rest))
    (range : InRange volume peak) (base : listing.baseScale ≤ 8) (quote : listing.quoteScale ≤ 8)
    (sides : maker.side = taker.side.opposite)
    (terms : Pass.Deal listing taker maker price amount money) :
    ∃ taker' maker', taker.fill amount money = .ok taker' ∧ maker.fill amount money = .ok maker' ∧
      Covering volume peak (taker' ::ₘ maker' ::ₘ rest) ∧
      totalSupply (taker' ::ₘ maker' ::ₘ rest) =
        totalSupply (taker ::ₘ maker ::ₘ rest) - amount.value := by
  have taken := covering taker (Multiset.mem_cons_self _ _)
  have given := covering maker (by simp)
  have grid := terms.grid base taken.counted given.counted
  have positive := terms.amount_pos
  have price_pos := terms.price_pos
  rw [Decimal.pos_iff] at positive price_pos
  have fewer := covering.amount_le sides terms.within_taker terms.within_maker
  have price_le : price.value ≤ peak := by
    rw [(Decimal.equiv_iff_value _ _).mp terms.price_fair]
    exact (dealPrice_priced taken given terms.limited).2
  obtain ⟨product, multiplied, rfl⟩ := terms.money_cut
  obtain ⟨product_nonneg, product_le⟩ := Decimal.mul_bounds positive.le price_pos.le multiplied
  obtain ⟨money_nonneg, money_le, -⟩ :=
    Decimal.truncate_bounds listing.quoteScale product_nonneg
  have money_grid : (listing.floorQuote product).OnGrid 8 :=
    Decimal.onGrid_of_scale_le ((Decimal.scale_truncate_le product listing.quoteScale).trans quote)
  have charge : (listing.floorQuote product).value ≤ 2 * (peak * amount.value) := by
    have highest := mul_le_mul_of_nonneg_right price_le positive.le
    rw [Listing.floorQuote]
    linarith
  obtain ⟨taker', took, taker_terms, taker_left, taker_covered⟩ :=
    taken.exists_fill range (Order.not_terminal_of_open terms.taker_open) grid positive fewer
      (fun quantity => (taken.exact quantity).within terms.within_taker) money_grid money_nonneg
      charge
  obtain ⟨maker', gave, maker_terms, maker_left, maker_covered⟩ :=
    given.exists_fill range (Order.not_terminal_of_open terms.maker_open) grid positive fewer
      (fun quantity => (given.exact quantity).within terms.within_maker) money_grid money_nonneg
      charge
  -- one of the two sells, and its supply goes down by the deal
  have less : totalSupply (taker' ::ₘ maker' ::ₘ rest) =
      totalSupply (taker ::ₘ maker ::ₘ rest) - amount.value := by
    have taker_side := Order.side_of_terms taker_terms
    have maker_side := Order.side_of_terms maker_terms
    simp only [totalSupply_cons, Order.supply, taker_side, maker_side, sides, taker_left,
      maker_left]
    cases taker.side <;> simp [Side.opposite] <;> ring
  refine ⟨taker', maker', took, gave, ?_, less⟩
  intro order member
  rw [less]
  rcases Multiset.mem_cons.mp member with rfl | member
  · exact taker_covered
  rcases Multiset.mem_cons.mp member with rfl | member
  · exact maker_covered
  · exact (covering order (by simp [member])).weaken range.peak_nonneg (by linarith)

end Covering

end SpotExchange
