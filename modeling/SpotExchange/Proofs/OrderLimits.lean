import SpotExchange.Proofs.DecimalRounding
import SpotExchange.Proofs.ExactQuantity
import SpotExchange.Proofs.OrderAccounts

/-!
How far an order is filled. With moderate amounts and prices no order uses more
than it asked for, a market buy no more money than it came with, and the status of
an order tells what is used. For a market buy this rests on the rounding: what its
money buys, cut to the places of a quantity, costs no more than the money.
-/

namespace SpotExchange

namespace Order

/-- What is used of the amount: money by a market buy, a quantity by any other
order. -/
def used (order : Order) : Decimal :=
  if order.isMarketBuy then order.filledMoney else order.filledAmount

/-- An order as it comes: open and not filled, with a moderate amount and, where it
has one, a moderate limit. -/
structure Fresh (order : Order) : Prop where
  opened : order.status = .opened
  unfilled : order.filledAmount ≈ 0
  unpaid : order.filledMoney ≈ 0
  amount : order.amount.Moderate
  amount_pos : 0 < order.amount
  price : order.kind = .limit → order.price.Moderate ∧ 0 < order.price

section Fresh
variable {price amount : Decimal} (number : String) (userId : UInt64) (symbol : String)
  (side : Side) (createdAt : Instant)

theorem fresh_limit (priced : price.Moderate) (price_pos : 0 < price) (moderate : amount.Moderate)
    (amount_pos : 0 < amount) : (limit number userId symbol side price amount createdAt).Fresh :=
  ⟨rfl, rfl, rfl, moderate, amount_pos, fun _ => ⟨priced, price_pos⟩⟩

theorem fresh_market (moderate : amount.Moderate) (amount_pos : 0 < amount) :
    (market number userId symbol side amount createdAt).Fresh :=
  ⟨rfl, rfl, rfl, moderate, amount_pos, nofun⟩

end Fresh

structure Funded (order : Order) : Prop where
  amount : order.amount.Moderate
  money_grid : order.filledMoney.OnGrid 8
  money_nonneg : 0 ≤ order.filledMoney.value
  money_le : order.filledMoney.value ≤ order.amount.value

/-- An order that keeps to its limits, with the status that is due to it. -/
structure Sound (order : Order) : Prop where
  priced : order.kind = .limit → order.price.Moderate
  filled_nonneg : 0 ≤ order.filledAmount.value
  counted : order.Counted 8
  funded : order.isMarketBuy = true → order.Funded
  closed : order.Spent → order.status = .filled
  standing : ¬ order.Spent →
    order.status = if 0 < order.filledAmount then .partiallyFilled else .opened

section Limits
variable {order later : Order}

theorem spent_iff_used : order.Spent ↔ order.amount ≤ order.used := by
  unfold Spent used
  split_ifs <;> rfl

theorem not_spent_of_open (live : order.isCompleted = false) : ¬ order.Spent := by
  intro spent
  rw [order.isCompleted_iff.mpr (Or.inr spent)] at live
  cases live

theorem Fresh.used (fresh : order.Fresh) : order.used.value = 0 := by
  have unfilled := (Decimal.equiv_iff_value _ _).mp fresh.unfilled
  have unpaid := (Decimal.equiv_iff_value _ _).mp fresh.unpaid
  rw [Decimal.value_zero] at unfilled unpaid
  unfold Order.used
  split_ifs
  · exact unpaid
  · exact unfilled

theorem Fresh.sound (fresh : order.Fresh) : order.Sound := by
  have unfilled := (Decimal.equiv_iff_value _ _).mp fresh.unfilled
  have unpaid := (Decimal.equiv_iff_value _ _).mp fresh.unpaid
  have positive := (Decimal.lt_iff_value _ _).mp fresh.amount_pos
  rw [Decimal.value_zero] at unfilled unpaid positive
  have unspent : ¬ order.Spent := by
    rw [spent_iff_used, Decimal.le_iff_value, fresh.used, not_le]
    exact positive
  constructor
  · exact fun limit => (fresh.price limit).1
  · exact unfilled.ge
  · cases quantity : order.isMarketBuy with
    | true => exact Or.inl quantity
    | false =>
        refine Or.inr ⟨quantity, fresh.amount.grid, Decimal.onGrid_of_value_zero unfilled,
          unfilled.ge, ?_, Decimal.scaled_lt_bound fresh.amount.most (by decide)⟩
        rw [left, unfilled, sub_zero]
        exact positive.le
  · exact fun _ => ⟨fresh.amount, Decimal.onGrid_of_value_zero unpaid, unpaid.ge,
      unpaid.le.trans positive.le⟩
  · exact fun spent => absurd spent unspent
  · intro _
    rw [fresh.opened, if_neg]
    rw [Decimal.lt_iff_value, unfilled, Decimal.value_zero]
    exact lt_irrefl 0

theorem status_of_filled {quantity money : Decimal} (live : order.status.isTerminal = false)
    (some : 0 < later.filledAmount) (filled : order.fill quantity money = .ok later) :
    (later.Spent → later.status = .filled) ∧
      (¬ later.Spent →
        later.status = if 0 < later.filledAmount then .partiallyFilled else .opened) := by
  obtain ⟨-, -, -, done, closed⟩ := fill_of_open live filled
  refine ⟨closed, ?_⟩
  intro unspent
  rw [if_pos some]
  simp only [fill, live, Bool.false_eq_true, ↓reduceIte, bind_eq_ok, return_eq_ok] at filled
  obtain ⟨filledAmount, -, filledMoney, -, rfl⟩ := filled
  unfold settleStatus at *
  split_ifs at * with ended partly
  · exact absurd rfl (mt done.mp unspent)
  · rfl
  · exact absurd some partly

structure Affords (places : Nat) (price need : Decimal) (money : ℚ) : Prop where
  nonneg : 0 ≤ need.value
  grid : need.OnGrid places
  most : need.value * price.value ≤ money
  least : money * tenTo places < (need.value * tenTo places + 1) * price.value

theorem Funded.exists_left (funded : order.Funded) : ∃ left,
    order.amount.sub order.filledMoney = .ok left ∧
      left.value = order.amount.value - order.filledMoney.value ∧ left.Moderate := by
  have nonneg := sub_nonneg.mpr funded.money_le
  have most : order.amount.value - order.filledMoney.value ≤ 10 ^ 10 := by
    linarith [funded.amount.most, funded.money_nonneg]
  obtain ⟨left, subtracted, value⟩ := Decimal.sub_exact funded.amount.grid funded.money_grid (by
    rw [abs_of_nonneg nonneg]
    exact Decimal.scaled_lt_bound most (by decide))
  refine ⟨left, subtracted, value, ?_, value ▸ nonneg, value ▸ most⟩
  exact Decimal.onGrid_of_value_sub funded.amount.grid funded.money_grid value

theorem Funded.affords {price need : Decimal} {places : Nat} (funded : order.Funded)
    (buys : order.isMarketBuy = true) (few : places ≤ 8) (priced : price.Moderate)
    (positive : 0 < price.value) (offered : order.availableAt price places = .ok need) :
    Affords places price need (order.amount.value - order.filledMoney.value) := by
  obtain ⟨left, subtracted, value, moderate⟩ := funded.exists_left
  have free : ¬ price ≤ 0 := by
    rwa [Decimal.not_nonpos_iff]
  simp only [Order.availableAt, buys, ↓reduceIte, if_neg free] at offered
  obtain ⟨same, equal, rest⟩ := (bind_eq_ok _ _ _).mp offered
  obtain rfl : left = same := Except.ok.inj (subtracted.symm.trans equal)
  rw [← value]
  split_ifs at rest with spent
  · -- without money nothing can be taken
    rw [Decimal.nonpos_iff] at spent
    have zero := le_antisymm spent moderate.nonneg
    cases rest
    constructor
    · exact Decimal.value_zero.ge
    · exact Decimal.onGrid_of_scale_le (Nat.zero_le places)
    · rw [Decimal.value_zero, zero_mul, zero]
    · rw [zero, zero_mul, Decimal.value_zero, zero_mul, zero_add, one_mul]
      exact positive
  · obtain ⟨quotient, divided, cut⟩ := (bind_eq_ok _ _ _).mp rest
    cases cut
    constructor
    · exact (Decimal.truncate_bounds places
        (Decimal.div_nonneg_of_moderate moderate positive divided)).1
    · exact Decimal.onGrid_of_scale_le (Decimal.scale_truncate_le quotient places)
    · exact Decimal.div_truncate_le few moderate priced positive divided
    · exact Decimal.lt_div_truncate few moderate priced positive divided

theorem Funded.within {price quantity : Decimal} {places : Nat} (funded : order.Funded)
    (buys : order.isMarketBuy = true) (few : places ≤ 8) (priced : price.Moderate)
    (positive : 0 < price) (offer : ∃ need, order.availableAt price places = .ok need ∧
      quantity ≤ need) :
    quantity.value * price.value ≤ order.amount.value - order.filledMoney.value := by
  obtain ⟨need, offered, most⟩ := offer
  rw [Decimal.pos_iff] at positive
  rw [Decimal.le_iff_value] at most
  exact (mul_le_mul_of_nonneg_right most positive.le).trans
    (funded.affords buys few priced positive offered).most

end Limits

end Order

namespace Pass

section Charges
variable {listing : Listing} {taker maker : Order} {price amount money : Decimal}

theorem Deal.moderate (terms : Deal listing taker maker price amount money)
    (taken : taker.kind = .limit → taker.price.Moderate)
    (given : maker.kind = .limit → maker.price.Moderate) : price.Moderate := by
  have same := (Decimal.equiv_iff_value _ _).mp terms.price_fair
  cases kind : maker.kind with
  | limit =>
      rw [dealPrice, kind] at same
      exact (given kind).of_value same
  | market =>
      rw [dealPrice, kind] at same
      refine (taken (terms.limited.resolve_right ?_)).of_value same
      simp [kind]

/-- The money of a trade is its value cut to the places of the listing. -/
structure Charges (listing : Listing) (price amount money : Decimal) : Prop where
  grid : money.OnGrid 8
  nonneg : 0 ≤ money.value
  most : money.value ≤ amount.value * price.value
  least : amount.value * price.value * tenTo listing.quoteScale <
    money.value * tenTo listing.quoteScale + 1

theorem Deal.charges (terms : Deal listing taker maker price amount money)
    (few : listing.quoteScale ≤ 8) (grid : amount.OnGrid 8) (priced : price.Moderate)
    (most : amount.value * price.value ≤ 10 ^ 10) : Charges listing price amount money := by
  obtain ⟨product, multiplied, rfl⟩ := terms.money_cut
  have nonneg := mul_nonneg terms.nonneg priced.nonneg
  obtain ⟨exact, same, value⟩ := Decimal.mul_exact grid priced.grid (by decide) (by
    rw [abs_of_nonneg nonneg]
    exact Decimal.scaled_lt_bound most le_rfl)
  obtain rfl : exact = product := Except.ok.inj (same.symm.trans multiplied)
  rw [← value] at nonneg
  obtain ⟨least, upper, lower⟩ := Decimal.truncate_bounds listing.quoteScale nonneg
  constructor
  · exact Decimal.onGrid_of_scale_le ((Decimal.scale_truncate_le _ _).trans few)
  · exact least
  · rw [← value]
    exact upper
  · rw [← value]
    exact lower

end Charges

end Pass

namespace Order

section Keeping
variable {listing : Listing} {taker maker order later : Order} {price amount money : Decimal}

/-- What a market buy pays in a deal is charged for what it takes, and it has it. -/
theorem Funded.charges (funded : order.Funded) (buys : order.isMarketBuy = true)
    (base : listing.baseScale ≤ 8) (quote : listing.quoteScale ≤ 8)
    (terms : Pass.Deal listing taker maker price amount money) (grid : amount.OnGrid 8)
    (priced : price.Moderate) (offer : ∃ need,
      order.availableAt price listing.baseScale = .ok need ∧ amount ≤ need) :
    Pass.Charges listing price amount money ∧
      amount.value * price.value ≤ order.amount.value - order.filledMoney.value := by
  have within := funded.within buys base priced terms.price_pos offer
  refine ⟨terms.charges quote grid priced ?_, within⟩
  linarith [funded.amount.most, funded.money_nonneg]

theorem Funded.fill (funded : order.Funded) (opened : order.status.isTerminal = false)
    (charges : Pass.Charges listing price amount money)
    (within : amount.value * price.value ≤ order.amount.value - order.filledMoney.value)
    (filled : order.fill amount money = .ok later) :
    later.Funded ∧ later.filledMoney.value = order.filledMoney.value + money.value := by
  obtain ⟨-, paid, same, -, -⟩ := fill_of_open opened filled
  have most : order.filledMoney.value + money.value ≤ order.amount.value := by
    linarith [charges.most]
  obtain ⟨total, sum, value⟩ := Decimal.add_exact funded.money_grid charges.grid (by
    rw [abs_of_nonneg (add_nonneg funded.money_nonneg charges.nonneg)]
    exact Decimal.scaled_lt_bound (most.trans funded.amount.most) (by decide))
  obtain rfl : total = later.filledMoney := Except.ok.inj (sum.symm.trans paid)
  refine ⟨⟨?_, Decimal.onGrid_of_value_add funded.money_grid charges.grid value, ?_, ?_⟩, value⟩
  · rw [amount_of_terms same]
    exact funded.amount
  · rw [value]
    exact add_nonneg funded.money_nonneg charges.nonneg
  · rw [value, amount_of_terms same]
    exact most

theorem Sound.fill (sound : order.Sound) (live : order.isCompleted = false)
    (base : listing.baseScale ≤ 8) (quote : listing.quoteScale ≤ 8)
    (terms : Pass.Deal listing taker maker price amount money) (grid : amount.OnGrid 8)
    (priced : price.Moderate) (offer : ∃ need,
      order.availableAt price listing.baseScale = .ok need ∧ amount ≤ need)
    (filled : order.fill amount money = .ok later) : later.Sound := by
  have opened := not_terminal_of_open live
  obtain ⟨added, -, same, -, -⟩ := fill_of_open opened filled
  have some := terms.amount_pos
  rw [Decimal.pos_iff] at some
  -- a deal always fills something, so the status is no longer that of a new order
  have more := Decimal.add_pos sound.filled_nonneg some added
  obtain ⟨closed, standing⟩ := status_of_filled opened
    ((Decimal.lt_iff_value _ _).mpr (by rwa [Decimal.value_zero])) filled
  refine ⟨?_, more.le, ?_, ?_, closed, standing⟩
  · rw [kind_of_terms same, price_of_terms same]
    exact sound.priced
  · rcases sound.counted with buys | exact
    · exact Or.inl ((marketBuy_of_terms same).trans buys)
    · exact Or.inr (exact.fill live grid terms.nonneg (exact.within offer) filled).1
  · intro buys
    rw [marketBuy_of_terms same] at buys
    have funded := sound.funded buys
    obtain ⟨charges, within⟩ := funded.charges buys base quote terms grid priced offer
    exact (funded.fill opened charges within filled).1

theorem sound_keeps (base : listing.baseScale ≤ 8) (quote : listing.quoteScale ≤ 8) :
    Pass.Keeps listing Sound := by
  intro taker maker taken given price amount money own other terms took gave
  have grid := terms.grid base own.counted other.counted
  have priced := terms.moderate own.priced other.priced
  constructor
  · exact own.fill terms.taker_open base quote terms grid priced terms.within_taker took
  · exact other.fill terms.maker_open base quote terms grid priced terms.within_maker gave

theorem Sound.used_nonneg (sound : order.Sound) : 0 ≤ order.used.value := by
  unfold used
  split_ifs with buys
  · exact (sound.funded buys).money_nonneg
  · exact sound.filled_nonneg

theorem Sound.used_le (sound : order.Sound) : order.used.value ≤ order.amount.value := by
  unfold used
  split_ifs with buys
  · exact (sound.funded buys).money_le
  · exact sub_nonneg.mp (sound.counted.of_exact (Bool.eq_false_iff.mpr buys)).left_nonneg

theorem Sound.spent_iff (sound : order.Sound) : order.Spent ↔ order.used ≈ order.amount := by
  rw [spent_iff_used, Decimal.le_iff_value, Decimal.equiv_iff_value]
  exact ⟨fun all => le_antisymm sound.used_le all, fun same => same.ge⟩

end Keeping

/-- What is used of an order lies between nothing and its amount, and its status
tells which: `filled` when all is used, and of an order that is neither filled nor
cancelled whether any quantity is. -/
structure WithinLimits (order : Order) : Prop where
  nonneg : 0 ≤ order.used
  most : order.used ≤ order.amount
  filled : order.status = .filled ↔ order.used ≈ order.amount
  opened : order.status ≠ .filled → order.status ≠ .cancelled →
    (order.status = .opened ↔ order.filledAmount ≈ 0)
  partly : order.status ≠ .filled → order.status ≠ .cancelled →
    (order.status = .partiallyFilled ↔ ¬ order.filledAmount ≈ 0)

theorem Sound.withinLimits {order : Order} (sound : order.Sound) : order.WithinLimits := by
  have nothing : ¬ 0 < order.filledAmount ↔ order.filledAmount ≈ 0 := by
    rw [Decimal.lt_iff_value, Decimal.equiv_iff_value, Decimal.value_zero, not_lt]
    exact ⟨fun none => le_antisymm none sound.filled_nonneg, le_of_eq⟩
  -- an order that is not filled has something left, and its status tells whether any is used
  have unspent (other : order.status ≠ .filled) :=
    sound.standing fun spent => other (sound.closed spent)
  constructor
  · rw [Decimal.nonneg_iff]
    exact sound.used_nonneg
  · rw [Decimal.le_iff_value]
    exact sound.used_le
  · rw [← sound.spent_iff]
    refine ⟨?_, sound.closed⟩
    intro filled
    by_contra rest
    have status := sound.standing rest
    rw [filled] at status
    split_ifs at status
  · intro other _
    rw [unspent other, ← nothing]
    split_ifs with some <;> simp [some]
  · intro other _
    rw [unspent other, ← nothing]
    split_ifs with some <;> simp [some]

theorem Sound.withinLimits_cancel {order : Order} (sound : order.Sound)
    (live : order.isCompleted = false) : order.cancel.WithinLimits := by
  have status := status_cancel live
  have used : order.cancel.used = order.used := by
    rw [Order.used, Order.used, marketBuy_of_terms (terms_cancel order), filledMoney_cancel,
      filledAmount_cancel]
  have limits := sound.withinLimits
  constructor
  · rw [used]
    exact limits.nonneg
  · rw [used, amount_of_terms (terms_cancel order)]
    exact limits.most
  · rw [status, used, amount_of_terms (terms_cancel order), ← sound.spent_iff]
    exact ⟨nofun, fun spent => absurd spent (not_spent_of_open live)⟩
  · exact fun _ other => absurd status other
  · exact fun _ other => absurd status other

end Order

/-- In a run of fresh orders with moderate amounts and limits, every order keeps to
its limits wherever it is; a market buy never spends more than it came with. -/
theorem orders_within_limits {listing : Listing} {actions : List Action} {history : History}
    {market : Market} (run : Market.replay listing actions = .ok (history, market))
    (base : listing.baseScale ≤ 8) (quote : listing.quoteScale ≤ 8)
    (fresh : ∀ order ∈ Action.orders actions, order.Fresh) :
    ∀ record ∈ History.records history market, record.WithinLimits := by
  have holds := History.holds_of_replay (Order.sound_keeps base quote) run
    fun order member _ => (fresh order member).sound
  intro record member
  simp only [History.records, List.mem_append] at member
  rcases member with (resting | done) | cancelled
  · exact (holds.resting record resting).withinLimits
  · exact (holds.finished record done).2.withinLimits
  · obtain ⟨last, rfl, live, sound⟩ := holds.withdrawn record cancelled
    exact sound.withinLimits_cancel live

theorem Decimal.moderate_ofParts {coefficient : Int} {scale : Nat}
    (moderate : 0 ≤ coefficient ∧ coefficient ≤ 1000 ∧ scale ≤ 8) :
    (Decimal.ofParts coefficient scale).Moderate := by
  obtain ⟨nonneg, small, few⟩ := moderate
  have inRange : coefficient.natAbs < bound := by
    unfold bound
    omega
  have nonneg : (0 : ℚ) ≤ coefficient := by exact_mod_cast nonneg
  rw [ofParts_eq inRange (by omega)]
  refine ⟨onGrid_of_scale_le few, div_nonneg nonneg (tenTo_pos_rat scale).le, ?_⟩
  have one : (1 : ℚ) ≤ tenTo scale := by exact_mod_cast tenTo_pos scale
  have fewer : (coefficient : ℚ) ≤ 1000 := by exact_mod_cast small
  exact ((div_le_self nonneg one).trans fewer).trans (by norm_num)

def Listing.coarse (baseScale quoteScale : Nat) : Listing :=
  { Listing.named "coin" with baseScale, quoteScale }

theorem History.fresh_buyActions (asks : List String) {price amount money : Decimal}
    (priced : price.Moderate) (price_pos : 0 < price) (moderate : amount.Moderate)
    (amount_pos : 0 < amount) (funds : money.Moderate) (funds_pos : 0 < money) :
    ∀ order ∈ Action.orders (buyActions asks price amount money), order.Fresh := by
  intro order member
  rw [buyActions, Action.orders, List.filterMap_append, List.mem_append] at member
  rcases member with ask | buy
  · simp only [List.mem_filterMap, List.mem_map] at ask
    obtain ⟨_, ⟨number, -, rfl⟩, same⟩ := ask
    cases same
    exact Order.fresh_limit _ _ _ _ _ priced price_pos moderate amount_pos
  · obtain rfl := List.mem_singleton.mp buy
    exact Order.fresh_market _ _ _ _ _ funds funds_pos

theorem sample_within_limits : ∃ history market,
    Market.replay (.coarse 4 2) (History.buyActions ["first", "second"] (.ofParts 333 2)
      (.ofParts 10 0) (.ofParts 100 2)) = .ok (history, market) ∧
    (History.records history market).map (fun record => (record.number, record.status)) =
      [("buy", .partiallyFilled), ("first", .partiallyFilled), ("second", .partiallyFilled)] ∧
    ∀ record ∈ History.records history market, record.WithinLimits := by
  have run : ∃ result, Market.replay (.coarse 4 2) (History.buyActions ["first", "second"]
        (.ofParts 333 2) (.ofParts 10 0) (.ofParts 100 2)) = .ok result ∧
      (History.records result.1 result.2).map (fun record => (record.number, record.status)) =
        [("buy", .partiallyFilled), ("first", .partiallyFilled), ("second", .partiallyFilled)] :=
    ⟨_, rfl, by decide +kernel⟩
  obtain ⟨⟨history, market⟩, ran, statuses⟩ := run
  refine ⟨history, market, ran, statuses, ?_⟩
  apply orders_within_limits ran (by decide) (by decide)
  exact History.fresh_buyActions _ (Decimal.moderate_ofParts (by decide)) (by decide)
    (Decimal.moderate_ofParts (by decide)) (by decide) (Decimal.moderate_ofParts (by decide))
    (by decide)

end SpotExchange
