import SpotExchange.Proofs.NotionalBound
import SpotExchange.Proofs.PriceTimePriority

/-!
Whose turn it is when a market buy comes. Asks at a better price are all gone before
one at a worse price is touched. Within a price an ask can be served while one before
it keeps a part, but only after a trade of the earlier one was charged less than its
value, which left the buyer money that was spent already.
-/

namespace SpotExchange

namespace Order

theorem marketBuy_iff (order : Order) :
    order.isMarketBuy = true ↔ order.kind = .market ∧ order.side = .buy := by
  simp [isMarketBuy]

/-- Whether the money that a market buy has left is too little for one unit of a
quantity. -/
def Short (places : Nat) (price : Decimal) (order : Order) : Prop :=
  (order.amount.value - order.filledMoney.value) * tenTo places < price.value

section Short
variable {places : Nat} {price need : Decimal} {money : ℚ}
  (affords : Affords places price need money)
include affords

theorem Affords.short_of_nothing (nothing : need.value ≤ 0) :
    money * tenTo places < price.value := by
  have least := affords.least
  rw [le_antisymm nothing affords.nonneg, zero_mul, zero_add, one_mul] at least
  exact least

theorem Affords.nothing_of_short (positive : 0 < price.value)
    (short : money * tenTo places < price.value) : need.value ≤ 0 := by
  have scale := Decimal.tenTo_pos_rat places
  obtain ⟨units, grid⟩ := (Decimal.onGrid_iff places need).mp affords.grid
  have less : need.value * tenTo places * price.value < 1 * price.value := calc
    need.value * tenTo places * price.value = need.value * price.value * tenTo places := by ring
    _ ≤ money * tenTo places := mul_le_mul_of_nonneg_right affords.most scale.le
    _ < 1 * price.value := by rwa [one_mul]
  -- the units are a whole number below one
  have none := (mul_lt_mul_iff_of_pos_right positive).mp less
  rw [grid, ← Int.cast_one, Int.cast_lt, ← Int.zero_add 1, Int.lt_add_one_iff] at none
  rw [← mul_le_mul_iff_of_pos_right scale, grid, zero_mul]
  exact_mod_cast none

end Short

end Order

namespace Pass

def Sells (order : Order) (dealt : List Trade) : Prop :=
  ∃ trade ∈ dealt, trade.sellNumber = order.number

instance (order : Order) (dealt : List Trade) : Decidable (Sells order dealt) :=
  inferInstanceAs (Decidable (∃ trade ∈ dealt, trade.sellNumber = order.number))

/-- What it takes to be served behind an ask that is kept: the same price, and if
amounts are moderate, a trade of that ask that was charged less than its value. -/
def Excused (moderate : Prop) (dealt : List Trade) (first second : Order) : Prop :=
  first.price ≈ second.price ∧
    (moderate → ∃ trade ∈ dealt, trade.sellNumber = first.number ∧ trade.isCut = true)

/-- The trades of a walk over asks and those that it kept, where nobody is served
behind an ask that is kept without an excuse. -/
structure Turns (moderate : Prop) (makers kept : List Order) (dealt : List Trade) : Prop where
  sellers : ∀ trade ∈ dealt, trade.sellNumber ∈ makers.map Order.number
  numbers : (kept.map Order.number).Sublist (makers.map Order.number)
  turn : ∀ first second, [first, second].Sublist makers → Sells second dealt →
    first.number ∈ kept.map Order.number → Excused moderate dealt first second

section Turns
variable {moderate : Prop} {near far kept left : List Order} {dealt later : List Trade}
  {first second order : Order}

theorem not_sells_nil : ¬ Sells order [] := by
  rintro ⟨_, none, -⟩
  cases none

theorem sells_append : Sells order (dealt ++ later) ↔ Sells order dealt ∨ Sells order later := by
  unfold Sells
  simp only [List.mem_append, or_and_right, exists_or]

theorem Excused.among {more : List Trade} (excused : Excused moderate dealt first second)
    (among : dealt ⊆ more) : Excused moderate more first second := by
  constructor
  · exact excused.1
  · intro holds
    obtain ⟨trade, member, facts⟩ := excused.2 holds
    exact ⟨trade, among member, facts⟩

theorem Turns.idle (moderate : Prop) (makers : List Order) : Turns moderate makers makers [] where
  sellers := fun _ member => nomatch member
  numbers := .refl _
  turn := fun _ _ _ sells => absurd sells not_sells_nil

theorem Turns.not_sells (turns : Turns moderate near kept dealt)
    (absent : order.number ∉ near.map Order.number) : ¬ Sells order dealt := by
  rintro ⟨trade, member, seller⟩
  exact absent (seller ▸ turns.sellers trade member)

theorem Turns.append (first_turns : Turns moderate near kept dealt)
    (second_turns : Turns moderate far left later)
    (distinct : ((near ++ far).map Order.number).Nodup)
    (between : ∀ first ∈ near, ∀ second ∈ far, Sells second later →
      first.number ∈ kept.map Order.number → Excused moderate dealt first second) :
    Turns moderate (near ++ far) (kept ++ left) (dealt ++ later) := by
  rw [List.map_append, List.nodup_append'] at distinct
  obtain ⟨-, -, apart⟩ := distinct
  have not_far {order : Order} (member : order ∈ near) : order.number ∉ far.map Order.number :=
    apart (List.mem_map_of_mem member)
  have not_near {order : Order} (member : order ∈ far) : order.number ∉ near.map Order.number :=
    fun inside => apart inside (List.mem_map_of_mem member)
  have near_front := List.subset_append_left dealt later
  constructor
  · intro trade member
    rw [List.map_append]
    rcases List.mem_append.mp member with early | late
    · exact List.mem_append_left _ (first_turns.sellers trade early)
    · exact List.mem_append_right _ (second_turns.sellers trade late)
  · rw [List.map_append, List.map_append]
    exact first_turns.numbers.append second_turns.numbers
  · intro first second stands sells stays
    rw [sells_append] at sells
    rw [List.map_append, List.mem_append] at stays
    obtain ⟨front, back, split, in_near, in_far⟩ := List.sublist_append_iff.mp stands
    -- both stand in the near part, one in each, or both in the far part
    cases front with
    | nil =>
        rw [List.nil_append] at split
        subst split
        have first_far := in_far.subset List.mem_cons_self
        have second_far := in_far.subset (List.mem_cons_of_mem _ List.mem_cons_self)
        exact (second_turns.turn first second in_far
          (sells.resolve_left (first_turns.not_sells (not_near second_far)))
          (stays.resolve_left fun inside =>
            not_near first_far (first_turns.numbers.subset inside))).among
            (List.subset_append_right dealt later)
    | cons head tail =>
        cases tail with
        | nil =>
            obtain ⟨rfl, rfl⟩ := List.cons_eq_cons.mp split
            have first_near := in_near.subset List.mem_cons_self
            have second_far := in_far.subset List.mem_cons_self
            exact (between first first_near second second_far
              (sells.resolve_left (first_turns.not_sells (not_near second_far)))
              (stays.resolve_right fun inside =>
                not_far first_near (second_turns.numbers.subset inside))).among near_front
        | cons next rest =>
            simp only [List.cons_append, List.cons.injEq, List.nil_eq,
              List.append_eq_nil_iff] at split
            obtain ⟨rfl, rfl, rfl, rfl⟩ := split
            have first_near := in_near.subset List.mem_cons_self
            have second_near := in_near.subset (List.mem_cons_of_mem _ List.mem_cons_self)
            exact (first_turns.turn first second in_near
              (sells.resolve_right (second_turns.not_sells (not_far second_near)))
              (stays.resolve_right fun inside =>
                not_far first_near (second_turns.numbers.subset inside))).among near_front

theorem Turns.stop (turns : Turns moderate near kept dealt)
    (distinct : ((near ++ far).map Order.number).Nodup) :
    Turns moderate (near ++ far) (kept ++ far) dealt := by
  have whole := turns.append (.idle moderate far) distinct
    fun _ _ _ _ sells => absurd sells not_sells_nil
  rwa [List.append_nil] at whole

end Turns

structure Asks (price : Decimal) (maker : Order) : Prop where
  limit : maker.kind = .limit
  live : maker.isCompleted = false
  near : maker.price ≈ price

structure Bounded (listing : Listing) (taker : Order) (makers : List Order) : Prop where
  base : listing.baseScale ≤ 8
  quote : listing.quoteScale ≤ 8
  taker : taker.Sound
  makers : ∀ maker ∈ makers, maker.Sound

/-- A market buy and an order of a quantity that can deal at a price, with exact money. -/
structure Bargain (listing : Listing) (price : Decimal) (buyer seller : Order) : Prop where
  base : listing.baseScale ≤ 8
  quote : listing.quoteScale ≤ 8
  buys : buyer.isMarketBuy = true
  sound : buyer.Sound
  exact : seller.Exact 8
  buyer_open : buyer.isCompleted = false
  seller_open : seller.isCompleted = false
  priced : price.Moderate
  positive : 0 < price.value

section Bargain
variable {listing : Listing} {price need available : Decimal} {buyer seller : Order}
  (bargain : Bargain listing price buyer seller)
include bargain

theorem Bargain.affords (needed : buyer.availableAt price listing.baseScale = .ok need) :
    Order.Affords listing.baseScale price need (buyer.amount.value - buyer.filledMoney.value) :=
  (bargain.sound.funded bargain.buys).affords bargain.buys bargain.base bargain.priced
    bargain.positive needed

theorem Bargain.available_value
    (offered : seller.availableAt price listing.baseScale = .ok available) :
    available.value = seller.left := by
  obtain ⟨rest, same, value, -⟩ := bargain.exact.availableAt price listing.baseScale
  obtain rfl : rest = available := Except.ok.inj (same.symm.trans offered)
  exact value

variable (needed : buyer.availableAt price listing.baseScale = .ok need)
  (offered : seller.availableAt price listing.baseScale = .ok available)
include needed offered

theorem Bargain.short_of_vain (nothing : min need.value available.value ≤ 0) :
    buyer.Short listing.baseScale price := by
  have some := bargain.exact.left_pos bargain.seller_open
  rw [← bargain.available_value offered] at some
  exact (bargain.affords needed).short_of_nothing
    ((min_le_iff.mp nothing).resolve_right (not_le.mpr some))

section Deal
variable {taker maker taken given : Order} {amount money : Decimal}
  (terms : Deal listing taker maker price amount money) (grid : amount.OnGrid 8)
  (all : amount.value = min need.value available.value)
  (took : buyer.fill amount money = .ok taken) (gave : seller.fill amount money = .ok given)
  (stays : given.isCompleted = false)
include terms grid all took gave stays

theorem Bargain.rest_of_deal : Charges listing price amount money ∧ amount.value = need.value ∧
    taken.amount.value - taken.filledMoney.value =
      buyer.amount.value - buyer.filledMoney.value - money.value := by
  have funded := bargain.sound.funded bargain.buys
  have offer : ∃ need, buyer.availableAt price listing.baseScale = .ok need ∧ amount ≤ need := by
    refine ⟨need, needed, ?_⟩
    rw [Decimal.le_iff_value, all]
    exact min_le_left _ _
  obtain ⟨charges, within⟩ :=
    funded.charges bargain.buys bargain.base bargain.quote terms grid bargain.priced offer
  obtain ⟨-, paid⟩ :=
    funded.fill (Order.not_terminal_of_open bargain.buyer_open) charges within took
  refine ⟨charges, ?_, ?_⟩
  · have left := bargain.available_value offered
    have most : amount.value ≤ seller.left := by
      rw [all, ← left]
      exact min_le_right _ _
    obtain ⟨-, remains, done⟩ :=
      bargain.exact.fill bargain.seller_open grid terms.nonneg most gave
    rcases min_choice need.value available.value with needs | gives
    · rw [all, needs]
    · rw [remains, all, gives, left, sub_self, stays] at done
      exact absurd (done.mpr rfl) Bool.false_ne_true
  · rw [Order.amount_of_terms (Order.terms_fill took), paid]
    ring

theorem Bargain.short_of_deal (paid : ¬ money.value < amount.value * price.value) :
    taken.Short listing.baseScale price := by
  obtain ⟨charges, whole, rest⟩ :=
    bargain.rest_of_deal needed offered terms grid all took gave stays
  have exactly := le_antisymm charges.most (not_lt.mp paid)
  have least := (bargain.affords needed).least
  rw [Order.Short, rest, exactly, whole]
  linarith

end Deal

end Bargain

section Walk
variable {listing : Listing} {now : Instant} {pass met later : Pass} {maker after : Order}
  {price : Decimal} {near far kept : List Order}

theorem Bounded.ahead (bounded : Bounded listing pass.taker (near ++ far)) :
    Bounded listing pass.taker near where
  base := bounded.base
  quote := bounded.quote
  taker := bounded.taker
  makers := fun maker member => bounded.makers maker (List.mem_append_left _ member)

theorem Bounded.behind (bounded : Bounded listing pass.taker (near ++ far)) :
    Bounded listing pass.taker far where
  base := bounded.base
  quote := bounded.quote
  taker := bounded.taker
  makers := fun maker member => bounded.makers maker (List.mem_append_right _ member)

theorem Bounded.further (bounded : Bounded listing pass.taker (near ++ far))
    (cleared : Cleared listing now pass near later kept) : Bounded listing later.taker far where
  base := bounded.base
  quote := bounded.quote
  taker := by
    obtain ⟨_, steps, -, -, -⟩ := cleared
    exact (dealings_keep (Order.sound_keeps bounded.base bounded.quote) steps bounded.taker
      fun maker member => bounded.makers maker (List.mem_append_left _ member)).1
  makers := fun maker member => bounded.makers maker (List.mem_append_right _ member)

theorem marketBuy_of_cleared (cleared : Cleared listing now pass near later kept) :
    later.taker.isMarketBuy = pass.taker.isMarketBuy := by
  obtain ⟨_, steps, -, -, -⟩ := cleared
  exact Order.marketBuy_of_terms (dealings_terms steps).1

theorem dealPrice_of_limit (limit : maker.kind = .limit) (taker : Order) :
    dealPrice taker maker = maker.price := by
  rw [dealPrice, limit]

theorem Asks.price_pos (asks : Asks price maker) (positive : 0 < price) :
    0 < maker.price.value := by
  rw [(Decimal.equiv_iff_value _ _).mp asks.near]
  rwa [Decimal.pos_iff] at positive

theorem Asks.exact (asks : Asks price maker) (sound : maker.Sound) : maker.Exact 8 :=
  sound.counted.of_exact (by simp [Order.isMarketBuy, asks.limit])

theorem Asks.short_iff (asks : Asks price maker) {places : Nat} {order : Order} :
    order.Short places maker.price ↔ order.Short places price := by
  rw [Order.Short, Order.Short, (Decimal.equiv_iff_value _ _).mp asks.near]

theorem Asks.bargain (asks : Asks price maker) (buys : pass.taker.isMarketBuy = true)
    (live : pass.taker.isCompleted = false) (positive : 0 < price)
    (bounded : Bounded listing pass.taker [maker]) :
    Bargain listing maker.price pass.taker maker :=
  have sound := bounded.makers maker List.mem_cons_self
  { base := bounded.base
    quote := bounded.quote
    buys := buys
    sound := bounded.taker
    exact := asks.exact sound
    buyer_open := live
    seller_open := asks.live
    priced := sound.priced asks.limit
    positive := asks.price_pos positive }

theorem meet_short (buys : pass.taker.isMarketBuy = true) (live : pass.taker.isCompleted = false)
    (positive : 0 < price) (asks : Asks price maker) (bounded : Bounded listing pass.taker [maker])
    (short : pass.taker.Short listing.baseScale price)
    (meeting : pass.meet listing now maker = .ok (met, after)) : met = pass ∧ after = maker := by
  rcases meet_cases live asks.live (Or.inr asks.limit) meeting with
    ⟨same, kept, -⟩ | ⟨_, _, _, -, -, terms, -⟩
  · exact ⟨same, kept⟩
  · -- an amount that trades is positive, and the money has to buy it
    exfalso
    have bargain := asks.bargain buys live positive bounded
    rw [dealPrice_of_limit asks.limit] at terms
    obtain ⟨need, needed, within⟩ := terms.within_taker
    have some := terms.amount_pos
    rw [Decimal.pos_iff] at some
    rw [Decimal.le_iff_value] at within
    have nothing := (bargain.affords needed).nothing_of_short bargain.positive
      (asks.short_iff.mpr short)
    exact absurd (some.trans_le within) (not_lt.mpr nothing)

theorem sellNumber_between {taker : Order} (buys : taker.isMarketBuy = true) (maker : Order)
    (price amount money : Decimal) (now : Instant) :
    (Trade.between taker maker price amount money now).sellNumber = maker.number := by
  rw [Trade.between, (taker.marketBuy_iff.mp buys).2]

/-- A market buy that leaves an ask open is short of money at its price, unless it
was charged less than the value of what it took. -/
theorem meet_turn (buys : pass.taker.isMarketBuy = true) (live : pass.taker.isCompleted = false)
    (positive : 0 < price) (asks : Asks price maker)
    (meeting : pass.meet listing now maker = .ok (met, after)) :
    ∃ dealt, met.trades.toList = pass.trades.toList ++ dealt ∧
      (∀ trade ∈ dealt, trade.sellNumber = maker.number) ∧
      (Bounded listing pass.taker [maker] → after.isCompleted = false →
        met.taker.Short listing.baseScale price ∨ ∃ trade ∈ dealt, trade.isCut = true) := by
  have cases := meet_cases live asks.live (Or.inr asks.limit) meeting
  rw [dealPrice_of_limit asks.limit] at cases
  rcases cases with ⟨rfl, rfl, vain⟩ | ⟨need, available, money, needed, offered, terms, settled⟩
  · refine ⟨[], by simp, by simp, ?_⟩
    intro bounded _
    rcases vain with free | ⟨need, available, needed, offered, nothing⟩
    · rw [Decimal.nonpos_iff] at free
      exact absurd (asks.price_pos positive) (not_lt.mpr free)
    · rw [Decimal.le_iff_value, Decimal.value_min, Decimal.value_zero] at nothing
      have bargain := asks.bargain buys live positive bounded
      exact Or.inl (asks.short_iff.mp (bargain.short_of_vain needed offered nothing))
  · obtain ⟨gave, took, pushed, -, -⟩ := settle_eq_ok settled
    refine ⟨[_], by rw [pushed]; exact Array.toList_push, ?_, ?_⟩
    · intro trade member
      rw [List.mem_singleton.mp member]
      exact sellNumber_between buys _ _ _ _ _
    · intro bounded stays
      by_cases cut : money.value < (need.min available).value * maker.price.value
      · exact Or.inr ⟨_, List.mem_singleton_self _, by simpa [Trade.isCut, Trade.value] using cut⟩
      · have bargain := asks.bargain buys live positive bounded
        have grid := terms.grid bounded.base bounded.taker.counted
          (bounded.makers maker List.mem_cons_self).counted
        exact Or.inl (asks.short_iff.mp (bargain.short_of_deal needed offered terms grid
          (Decimal.value_min _ _) took gave stays cut))

theorem sweepQueue_short {queue : OrderQueue} (buys : pass.taker.isMarketBuy = true)
    (live : pass.taker.isCompleted = false) (positive : 0 < price)
    (asks : ∀ maker ∈ queue, Asks price maker) (bounded : Bounded listing pass.taker queue)
    (short : pass.taker.Short listing.baseScale price)
    (walk : pass.sweepQueue listing now queue = .ok (later, kept)) : later = pass := by
  induction queue generalizing kept with
  | nil =>
      cases walk
      rfl
  | cons maker rest ih =>
      obtain ⟨first, others⟩ := List.forall_mem_cons.mp asks
      have split : Bounded listing pass.taker ([maker] ++ rest) := bounded
      obtain ⟨met, after, told, front, meeting, fate, tail⟩ := sweepQueue_cons walk
      obtain ⟨rfl, rfl⟩ := meet_short buys live positive first split.ahead short meeting
      rcases fate with ⟨done, -, -⟩ | ⟨-, rfl, -⟩
      · rw [first.live] at done
        cases done
      · rcases tail with ⟨-, same, -⟩ | ⟨-, left, further, -⟩
        · exact same
        · exact ih others split.behind further

theorem sweepQueue_turns {moderate : Prop} {queue : OrderQueue}
    (buys : pass.taker.isMarketBuy = true) (live : pass.taker.isCompleted = false)
    (positive : 0 < price) (asks : ∀ maker ∈ queue, Asks price maker)
    (distinct : (queue.map Order.number).Nodup)
    (bounded : moderate → Bounded listing pass.taker queue)
    (walk : pass.sweepQueue listing now queue = .ok (later, kept)) :
    ∃ dealt, later.trades.toList = pass.trades.toList ++ dealt ∧
      Turns moderate queue kept dealt := by
  induction queue generalizing pass kept with
  | nil =>
      cases walk
      exact ⟨[], by simp, .idle moderate []⟩
  | cons maker rest ih =>
      obtain ⟨first, others⟩ := List.forall_mem_cons.mp asks
      obtain ⟨met, after, told, front, meeting, fate, tail⟩ := sweepQueue_cons walk
      obtain ⟨dealt, pushed, sellers, turn⟩ := meet_turn buys live positive first meeting
      have split (holds : moderate) : Bounded listing pass.taker ([maker] ++ rest) := bounded holds
      obtain ⟨cleared, fewer⟩ := cleared_of_fate live first.live (Or.inr first.limit) meeting fate
      have recorded : told.trades.toList = pass.trades.toList ++ dealt := by
        rcases fate with ⟨-, rfl, -⟩ | ⟨-, rfl, -⟩ <;> exact pushed
      -- first the step that meets this one ask, then the walk over the rest
      have near : Turns moderate [maker] front dealt := by
        refine ⟨?_, fewer.numbers, ?_⟩
        · intro trade member
          exact List.mem_singleton.mpr (sellers trade member)
        · intro one other stands
          exact absurd stands.length_le (by simp)
      rcases tail with ⟨-, rfl, rfl⟩ | ⟨more, left, further, rfl⟩
      · exact ⟨dealt, recorded, near.stop distinct⟩
      · have told_buys := (marketBuy_of_cleared cleared).trans buys
        obtain ⟨dealt', recorded', far⟩ := ih told_buys more others (List.nodup_cons.mp distinct).2
          (fun holds => (split holds).further cleared) further
        refine ⟨dealt ++ dealt', by rw [recorded', recorded, List.append_assoc],
          near.append far distinct ?_⟩
        -- whoever trades behind this ask does so because the money was not all counted
        intro one inside other member sells stays
        obtain rfl := List.mem_singleton.mp inside
        constructor
        · rw [Decimal.equiv_iff_value, (Decimal.equiv_iff_value _ _).mp first.near,
            (Decimal.equiv_iff_value _ _).mp (others other member).near]
        · intro holds
          rcases fate with ⟨-, -, rfl⟩ | ⟨still, rfl, -⟩
          · cases stays
          · rcases turn (split holds).ahead still with short | ⟨trade, traded, cut⟩
            · obtain rfl := sweepQueue_short told_buys more positive others
                ((split holds).further cleared) short further
              obtain ⟨trade, traded, -⟩ := sells
              rw [List.append_right_eq_self.mp recorded'.symm] at traded
              cases traded
            · exact ⟨trade, traded, sellers trade traded, cut⟩

/-- In a walk over a ladder of asks the trades come in turn: a level that keeps an
ask is the last one. -/
theorem sweepLadder_turns {moderate : Prop} {limit : Option Decimal} {symbol : String}
    {ladder left : Ladder} (buys : pass.taker.isMarketBuy = true)
    (live : pass.taker.isCompleted = false) (formed : ladder.WellFormed symbol .sell)
    (distinct : (ladder.orders.map Order.number).Nodup)
    (bounded : moderate → Bounded listing pass.taker ladder.orders)
    (walk : pass.sweepLadder listing now limit ladder = .ok (later, left)) :
    ∃ dealt, later.trades.toList = pass.trades.toList ++ dealt ∧
      Turns moderate ladder.orders left.orders dealt := by
  induction ladder generalizing pass left with
  | nil =>
      cases walk
      exact ⟨[], by simp, .idle moderate []⟩
  | cons level rest ih =>
      rcases sweepLadder_cons walk with ⟨-, rfl, rfl⟩ | ⟨-, met, orders, queue, tail⟩
      · exact ⟨[], by simp, .idle moderate _⟩
      · have asks : ∀ maker ∈ level.orders, Asks level.price maker := by
          intro maker member
          obtain ⟨limit, -, near⟩ := formed.placed level List.mem_cons_self maker member
          exact ⟨limit, (formed.rests level List.mem_cons_self maker member).live, near⟩
        rw [Ladder.orders_cons] at distinct bounded ⊢
        have apart := distinct
        rw [List.map_append, List.nodup_append] at apart
        obtain ⟨dealt, recorded, near⟩ := sweepQueue_turns buys live
          (formed.price_pos level List.mem_cons_self) asks apart.1
          (fun holds => (bounded holds).ahead) queue
        obtain ⟨cleared, -⟩ := sweepQueue_cleared live
          (fun maker member => (asks maker member).live)
          (fun maker member => Or.inr (asks maker member).limit) queue
        -- the walk goes on only from a level that keeps nobody
        rcases tail with ⟨-, rfl, rfl⟩ | ⟨rfl, more, further⟩
        · rw [Ladder.orders_keep]
          exact ⟨dealt, recorded, near.stop distinct⟩
        · obtain ⟨dealt', recorded', far⟩ := ih ((marketBuy_of_cleared cleared).trans buys) more
            formed.tail apart.2.1 (fun holds => (bounded holds).further cleared) further
          refine ⟨dealt ++ dealt', by rw [recorded', recorded, List.append_assoc],
            near.append far distinct ?_⟩
          intro _ _ _ _ _ stays
          cases stays

end Walk

end Pass

namespace Market

section Buying
variable {now : Instant} {market after later : Market} {order : Order} {pass : Pass}
  {report : Report}

theorem matchOrder_turns {moderate : Prop} (formed : market.book.WellFormed market.symbol)
    (buys : order.isMarketBuy = true) (live : order.isCompleted = false)
    (distinct : ((market.book.ladder .sell).orders.map Order.number).Nodup)
    (bounded : moderate → Pass.Bounded market.listing order (market.book.ladder .sell).orders)
    (matched : market.matchOrder now order = .ok (pass, after)) :
    Pass.Turns moderate (market.book.ladder .sell).orders (after.book.ladder .sell).orders
      pass.trades.toList := by
  obtain ⟨kind, side⟩ := order.marketBuy_iff.mp buys
  simp only [matchOrder, kind, matchLadder, Pass.start, live, Bool.false_eq_true, ↓reduceIte,
    bind_eq_ok, return_eq_ok, side, Side.opposite] at matched
  obtain ⟨⟨swept, ladder⟩, walk, same⟩ := matched
  cases same
  obtain ⟨dealt, recorded, turns⟩ :=
    Pass.sweepLadder_turns buys live (formed.ladders .sell) distinct bounded walk
  rw [OrderBook.ladder_setLadder, recorded]
  exact turns

theorem kept_of_rests {first : Order} (formed : market.book.WellFormed market.symbol)
    (stage : Stage now .buy market (.start order) pass after)
    (ended : after.finish pass = .ok (report, later))
    (distinct : (market.book.orders.map Order.number).Nodup)
    (fresh : order.number ∉ market.book.orders.map Order.number)
    (resting : first ∈ (market.book.ladder .sell).orders)
    (rests : first.number ∈ later.book.orders.map Order.number) :
    first.number ∈ (after.book.ladder .sell).orders.map Order.number := by
  obtain ⟨record, inside, number⟩ := List.mem_map.mp rests
  have known : first ∈ market.book.orders :=
    OrderBook.mem_orders.mpr ⟨.sell, List.mem_append_left _ resting⟩
  have taker : pass.taker.number ≠ first.number := by
    rw [Order.number_of_terms stage.taker_terms]
    intro same
    exact fresh (List.mem_map.mpr ⟨first, known, same.symm⟩)
  have standing : record ∈ after.book.orders := by
    obtain ⟨-, -, ⟨-, -, -, same⟩ | ⟨-, -, -, same⟩⟩ := finish_cases ended
    · rwa [same] at inside
    · rw [same, ← Multiset.mem_coe, OrderBook.coe_orders_place, Multiset.mem_cons] at inside
      rcases inside with rfl | other
      · exact absurd number taker
      · exact other
  -- no order of another container has its number
  have only {other : Order} {side : Side} (member : other ∈ market.book.ordersOf side)
      (same : other.number = first.number) : other = first :=
    List.inj_on_of_nodup_map distinct (OrderBook.mem_orders.mpr ⟨side, member⟩) known same
  obtain ⟨level, held, within⟩ := Ladder.mem_orders.mp resting
  obtain ⟨limit, sell, -⟩ := (formed.ladders .sell).placed level held first within
  obtain ⟨side, placed⟩ := OrderBook.mem_orders.mp standing
  cases side with
  | buy =>
      rw [OrderBook.ordersOf, stage.own_ladder, stage.own_queue, ← OrderBook.ordersOf] at placed
      have buy := (formed.rests placed).1
      rw [only placed number, sell] at buy
      cases buy
  | sell =>
      rcases List.mem_append.mp placed with ladder | queue
      · rw [← number]
        exact List.mem_map_of_mem ladder
      · obtain ⟨origin, waiting, terms⟩ := (stage.queues .sell).exists_terms queue
        have market := (formed.queues .sell origin waiting).1
        rw [only (List.mem_append_right _ waiting) ((Order.number_of_terms terms).trans number),
          limit] at market
        cases market

end Buying

end Market

section Turn
variable {arrivals : List String} {side : Side} {first second : Order} {orders : List Order}

theorem not_both_sublist {α : Type} {list : List α} {a b : α} (once : list.Nodup)
    (one : [a, b].Sublist list) : ¬ [b, a].Sublist list := by
  induction list with
  | nil => cases one
  | cons head rest ih =>
      obtain ⟨absent, tail⟩ := List.nodup_cons.mp once
      intro other
      cases one with
      | cons _ one =>
          cases other with
          | cons _ other => exact ih tail one other
          | cons_cons _ other => exact absent (one.subset (by simp))
      | cons_cons _ one =>
          cases other with
          | cons _ other => exact absent (other.subset (by simp))
          | cons_cons _ other => exact absent (one.subset (by simp))

theorem StandsBefore.asymm (once : arrivals.Nodup)
    (ahead : StandsBefore arrivals side first second) :
    ¬ StandsBefore arrivals side second first := by
  rintro (better | ⟨same, behind⟩)
  · rcases ahead with better' | ⟨same, -⟩
    · exact Side.value_ne_of_better (Side.better_trans better' better) rfl
    · exact Side.value_ne_of_better better ((Decimal.equiv_iff_value _ _).mp same).symm
  · rcases ahead with better' | ⟨-, front⟩
    · exact Side.value_ne_of_better better' ((Decimal.equiv_iff_value _ _).mp same).symm
    · exact not_both_sublist once front behind

theorem sublist_of_standsBefore (once : arrivals.Nodup)
    (standing : orders.Pairwise (StandsBefore arrivals side)) (first_in : first ∈ orders)
    (second_in : second ∈ orders) (ahead : StandsBefore arrivals side first second) :
    [first, second].Sublist orders := by
  induction orders with
  | nil => cases first_in
  | cons head rest ih =>
      obtain ⟨served, tail⟩ := List.pairwise_cons.mp standing
      rcases List.mem_cons.mp second_in with rfl | far
      · rcases List.mem_cons.mp first_in with rfl | near
        · exact absurd ahead (ahead.asymm once)
        · exact absurd (served first near) (ahead.asymm once)
      · rcases List.mem_cons.mp first_in with rfl | near
        · exact (List.singleton_sublist.mpr far).cons_cons _
        · exact (ih tail near far).cons _

end Turn

/-- Few places, and orders as they come with moderate amounts: then the money of a
market buy is exact. -/
structure MoneyExact (listing : Listing) (orders : List Order) : Prop where
  base : listing.baseScale ≤ 8
  quote : listing.quoteScale ≤ 8
  fresh : ∀ order ∈ orders, order.Fresh

theorem MoneyExact.bounded {listing : Listing} {actions : List Action} {history : History}
    {market : Market} {order : Order}
    (exactly : MoneyExact listing (Action.orders actions ++ [order]))
    (run : Market.replay listing actions = .ok (history, market)) :
    Pass.Bounded listing order (market.book.ladder .sell).orders := by
  have holds := History.holds_of_replay (Order.sound_keeps exactly.base exactly.quote) run
    fun order member _ => (exactly.fresh order (List.mem_append_left _ member)).sound
  refine ⟨exactly.base, exactly.quote,
    (exactly.fresh order (List.mem_append_right _ (List.mem_singleton_self _))).sound, ?_⟩
  intro maker member
  exact holds.resting maker (OrderBook.mem_orders.mpr ⟨.sell, List.mem_append_left _ member⟩)

/-- A market buy takes asks in turn. An ask that is to be served before one that it
trades with is filled and gone; or both have one price, and, where money is exact, a
trade of the first was charged less than its value. -/
theorem market_buy_takes_asks_in_turn {listing : Listing} {actions : List Action}
    {history : History} {market later : Market} {now : Instant} {order : Order} {report : Report}
    (run : Market.replay listing actions = .ok (history, market))
    (distinct : ((Action.orders actions ++ [order]).map Order.number).Nodup)
    (buys : order.isMarketBuy = true)
    (traded : market.trade now order = .ok (.processed report, later)) {first second : Order}
    (first_in : first ∈ (market.book.ladder .sell).orders)
    (second_in : second ∈ (market.book.ladder .sell).orders)
    (ahead : StandsBefore ((History.accepted history).map Order.number) .sell first second)
    (sells : Pass.Sells second report.trades) :
    (first.number ∉ later.book.orders.map Order.number ∧
      ∃ record ∈ report.completed, record.number = first.number ∧ record.status = .filled) ∨
    first.price ≈ second.price ∧ (MoneyExact listing (Action.orders actions ++ [order]) →
      ∃ trade ∈ report.trades, trade.sellNumber = first.number ∧ trade.isCut = true) := by
  obtain ⟨same, formed⟩ := Market.wellFormed_of_replay run
  obtain ⟨_, _, processes⟩ := Market.processes_of_trade formed traded
  rcases Market.trade_cases traded with
    ⟨_, refused, -, -⟩ | ⟨_, pass, after, told, accepts, matched, ended⟩
  · cases refused
  cases told
  have side := (order.marketBuy_iff.mp buys).2
  rw [List.map_append, List.nodup_append, ← Market.submitted_of_replay run] at distinct
  obtain ⟨earlier, -, fresh⟩ := distinct
  have fewer := (History.accepted_sublist history).map Order.number
  have once := earlier.sublist fewer
  have accounted := History.accounted_of_replay run earlier
  have absent : order.number ∉ (History.accepted history).map Order.number := by
    intro known
    exact fresh _ (fewer.subset known) _ (List.mem_singleton_self _) rfl
  have apart := accounted.resting_nodup once
  -- an order of the level is gone only as a completed one
  by_cases rests : first.number ∈ later.book.orders.map Order.number
  · have asks : ((market.book.ladder .sell).orders.map Order.number).Nodup := by
      simp only [OrderBook.orders, OrderBook.ordersOf, List.map_append, List.nodup_append] at apart
      exact apart.2.1.1
    have bounded (exactly : MoneyExact listing (Action.orders actions ++ [order])) :
        Pass.Bounded market.listing order (market.book.ladder .sell).orders := by
      rw [same]
      exact exactly.bounded run
    have turns := Market.matchOrder_turns formed buys accepts.rests.live asks bounded matched
    have stands := sublist_of_standsBefore once
      (orders_pairwise (formed.ladders .sell) ((arrival_order_of_replay run).levels .sell))
      first_in second_in ahead
    have stage := Market.matchOrder_stage formed matched
    rw [side] at stage
    rw [(Market.finish_cases ended).1] at sells ⊢
    exact Or.inr (turns.turn first second stands sells
      (Market.kept_of_rests formed stage ended apart (accounted.not_resting absent) first_in rests))
  · refine Or.inl ⟨rests, accounted.completed_of_gone processes absent once ?_ rests⟩
    rw [side]
    exact List.mem_append_left _ first_in

def History.askActions : List Action :=
  [.trade default (sampleAsk "first"), .trade default (sampleAsk "second")]

def History.sampleBuy : Order := .market "buy" 2 "coin" .buy (.ofParts 100 2) default

theorem run_sampleBuy : ∃ history market report later,
    Market.replay (.coarse 4 2) History.askActions = .ok (history, market) ∧
      market.trade default History.sampleBuy = .ok (.processed report, later) ∧
      (market.book.ladder .sell).orders =
        [History.sampleAsk "first", History.sampleAsk "second"] ∧
      (History.accepted history).map Order.number = ["first", "second"] ∧
      Pass.Sells (History.sampleAsk "second") report.trades ∧
      ∃ record ∈ later.book.orders, record.number = "first" ∧ record.status = .partiallyFilled :=
  ⟨_, _, _, _, rfl, rfl, by decide +kernel, by decide +kernel, by decide +kernel,
    by decide +kernel⟩

theorem first_before_second {arrivals : List String} (arrived : arrivals = ["first", "second"]) :
    StandsBefore arrivals .sell (History.sampleAsk "first") (History.sampleAsk "second") :=
  Or.inr ⟨by decide, arrived ▸ List.Sublist.refl _⟩

theorem sample_takes_asks_in_turn : ∃ history market report later,
    Market.replay (.coarse 4 2) History.askActions = .ok (history, market) ∧
      market.trade default History.sampleBuy = .ok (.processed report, later) ∧
      Pass.Sells (History.sampleAsk "second") report.trades ∧
      ∃ trade ∈ report.trades, trade.sellNumber = "first" ∧ trade.isCut = true := by
  obtain ⟨history, market, report, later, ran, traded, asks, arrived, sells, rests⟩ := run_sampleBuy
  have turn := market_buy_takes_asks_in_turn ran (by decide) rfl traded
    (asks ▸ List.mem_cons_self) (asks ▸ List.mem_cons_of_mem _ List.mem_cons_self)
    (first_before_second arrived) sells
  refine ⟨history, market, report, later, ran, traded, sells, ?_⟩
  rcases turn with ⟨gone, -⟩ | ⟨-, cut⟩
  · obtain ⟨record, resting, number, -⟩ := rests
    exact absurd (List.mem_map.mpr ⟨record, resting, number⟩) gone
  · apply cut
    refine ⟨by decide, by decide, ?_⟩
    exact History.fresh_buyActions ["first", "second"] (Decimal.moderate_ofParts (by decide))
      (by decide) (Decimal.moderate_ofParts (by decide)) (by decide)
      (Decimal.moderate_ofParts (by decide)) (by decide)

/-- An ask trades while one of its price that came earlier is not filled. -/
theorem ask_trades_before_its_turn : ∃ history market report later,
    Market.replay (.coarse 4 2) History.askActions = .ok (history, market) ∧
      market.trade default History.sampleBuy = .ok (.processed report, later) ∧
      ∃ first ∈ (market.book.ladder .sell).orders, ∃ second ∈ (market.book.ladder .sell).orders,
        StandsBefore ((History.accepted history).map Order.number) .sell first second ∧
        Pass.Sells second report.trades ∧
        ∃ record ∈ later.book.orders,
          record.number = first.number ∧ record.status = .partiallyFilled := by
  obtain ⟨history, market, report, later, ran, traded, asks, arrived, sells, rests⟩ := run_sampleBuy
  exact ⟨history, market, report, later, ran, traded, _, asks ▸ List.mem_cons_self, _,
    asks ▸ List.mem_cons_of_mem _ List.mem_cons_self, first_before_second arrived, sells, rests⟩

end SpotExchange
