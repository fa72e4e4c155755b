import SpotExchange.Proofs.Alike
import SpotExchange.Proofs.ExactQuantity
import SpotExchange.Proofs.TrailingZeros

/-!
What makers are given of an order that is shared out. As long as the shares do not exceed
the order, what is left of it never limits what a maker is given: before every maker it
covers the shares of that maker and of all behind it. So every maker is given its share,
as far as it has that much left, whoever came before it.
-/

namespace SpotExchange

/-- The part of an order that falls to a maker of `total`, cut to the places of a
quantity. Nothing does where it cannot be computed. -/
def Listing.shareOf (listing : Listing) (order : Order) (total : Decimal) (maker : Order) : ℚ :=
  match proRata order.amount maker.amount total with
  | .ok share => (listing.floorBase share).value
  | .error _ => 0

/-- What a maker is given of an order: its share, as far as it has that much left. -/
def Listing.portion (listing : Listing) (order : Order) (total : Decimal) (maker : Order) : ℚ :=
  Min.min (listing.shareOf order total maker) maker.left

section Shares
variable {listing : Listing} {order maker : Order} {total total' : Decimal}

theorem proRata_nonneg {amount part share : Decimal} (amount_nonneg : 0 ≤ amount.value)
    (part_nonneg : 0 ≤ part.value) (positive : 0 < total.value)
    (shared : proRata amount part total = .ok share) : 0 ≤ share.value := by
  unfold proRata at shared
  split at shared
  · rename_i direct
    cases shared
    obtain ⟨product, multiplied, divided⟩ := (bind_eq_ok _ _ _).mp direct
    exact (Decimal.div_bounds (Decimal.mul_bounds amount_nonneg part_nonneg multiplied).1 positive
      divided).1
  · obtain ⟨quotient, divided, multiplied⟩ := (bind_eq_ok _ _ _).mp shared
    exact (Decimal.mul_bounds amount_nonneg (Decimal.div_bounds part_nonneg positive divided).1
      multiplied).1

theorem shareOf_nonneg (order_nonneg : 0 ≤ order.amount.value)
    (maker_nonneg : 0 ≤ maker.amount.value) (positive : 0 < total.value) :
    0 ≤ listing.shareOf order total maker := by
  unfold Listing.shareOf
  split
  · rename_i share shared
    exact (Decimal.truncate_bounds _ (proRata_nonneg order_nonneg maker_nonneg positive shared)).1
  · exact le_rfl

theorem shareOf_congr (same : total ≈ total') (positive : 0 < total) :
    listing.shareOf order total maker = listing.shareOf order total' maker := by
  have shares := proRata_alike (Decimal.equiv_rfl (a := order.amount))
    (Decimal.equiv_rfl (a := maker.amount)) same positive
  unfold Listing.shareOf
  generalize proRata order.amount maker.amount total = first at shares ⊢
  generalize proRata order.amount maker.amount total' = second at shares ⊢
  cases shares with
  | error cause => rfl
  | ok near => exact (Decimal.equiv_iff_value _ _).mp (Decimal.truncate_alike near _)

theorem shareOf_of_terms {taker : Order} (same : taker.terms = order.terms) :
    listing.shareOf taker total maker = listing.shareOf order total maker := by
  rw [Listing.shareOf, Listing.shareOf, Order.amount_of_terms same]

end Shares

def Trade.given (trade : Trade) : String × ℚ :=
  (match trade.takerSide with
    | .buy => trade.sellNumber
    | .sell => trade.buyNumber, trade.amount.value)

/-- Who is given how much of an order: every maker its portion, if it has one. -/
def Listing.portions (listing : Listing) (order : Order) (total : Decimal) (makers : List Order) :
    List (String × ℚ) :=
  makers.filterMap fun maker =>
    if 0 < listing.portion order total maker then
      some (maker.number, listing.portion order total maker)
    else none

/-- What becomes of a maker: one execution of its portion of the order, at its price, or
nothing when it has none. -/
inductive Allotted (listing : Listing) (now : Instant) (order : Order) (total : Decimal)
    (maker : Order) : Order × List Trade → Prop
  | traded {record : Order} {trade : Trade} (some : 0 < listing.portion order total maker)
      (amount : trade.amount.value = listing.portion order total maker)
      (price : trade.price ≈ maker.price)
      (money : ∃ product, trade.amount.mul trade.price = .ok product ∧
        trade.money = listing.floorQuote product)
      (between : trade = Trade.between order maker trade.price trade.amount trade.money now)
      (filled : maker.fill trade.amount trade.money = .ok record) :
      Allotted listing now order total maker (record, [trade])
  | spared (none : listing.portion order total maker ≤ 0) :
      Allotted listing now order total maker (maker, [])

theorem Allotted.congr {listing : Listing} {now : Instant} {order maker : Order}
    {total total' : Decimal} {fate : Order × List Trade}
    (same : listing.shareOf order total maker = listing.shareOf order total' maker)
    (allotted : Allotted listing now order total maker fate) :
    Allotted listing now order total' maker fate := by
  have portions : listing.portion order total maker = listing.portion order total' maker := by
    rw [Listing.portion, Listing.portion, same]
  cases allotted with
  | traded some amount price money between filled =>
      exact .traded (portions ▸ some) (portions ▸ amount) price money between filled
  | spared none => exact .spared (portions ▸ none)

theorem Trade.given_between (taker maker : Order) (price amount money : Decimal) (now : Instant) :
    (Trade.between taker maker price amount money now).given = (maker.number, amount.value) := by
  cases side : taker.side <;> simp [Trade.between, Trade.given, side]

theorem given_of_allotted {listing : Listing} {now : Instant} {order : Order} {total : Decimal}
    {makers : List Order} {fates : List (Order × List Trade)}
    (allotted : List.Forall₂ (Allotted listing now order total) makers fates) :
    (fates.flatMap Prod.snd).map Trade.given = listing.portions order total makers := by
  induction allotted with
  | nil => rfl
  | @cons maker fate _ _ first _ ih =>
      rw [List.flatMap_cons, List.map_append, ih, Listing.portions, Listing.portions,
        List.filterMap_cons]
      cases first with
      | traded some amount _ _ between _ =>
          rw [if_pos some, between, List.map_singleton, Trade.given_between, amount]
          rfl
      | spared none =>
          rw [if_neg (not_lt.mpr none)]
          rfl

namespace Pass

/-- A taker on its way through the makers of an order: what is left of it covers what is
owed to those still to come. -/
structure Owing (places : Nat) (order : Order) (owed : ℚ) (pass : Pass) : Prop where
  exact : pass.taker.Exact places
  terms : pass.taker.terms = order.terms
  spent : pass.taker.isCompleted = true → pass.taker.left = 0
  covers : owed ≤ pass.taker.left

structure Entitled (places : Nat) (maker : Order) : Prop where
  exact : maker.Exact places
  live : maker.isCompleted = false
  limit : maker.kind = .limit

section Shares
variable {places : Nat} {listing : Listing} {now : Instant} {order : Order} {pass given : Pass}
  {total price : Decimal} {owed : ℚ}

theorem Entitled.portion_bounds {maker : Order} (entitled : Entitled places maker)
    (nonneg : 0 ≤ listing.shareOf order total maker) :
    0 ≤ listing.portion order total maker ∧
      listing.portion order total maker ≤ listing.shareOf order total maker :=
  ⟨le_min nonneg (entitled.exact.left_pos entitled.live).le, min_le_left _ _⟩

/-- One allotment is not limited by what is left of the order. -/
theorem Owing.allot {maker after : Order} (fewer : listing.baseScale ≤ places)
    (owing : Owing places order (listing.shareOf order total maker + owed) pass)
    (owed_nonneg : 0 ≤ owed) (entitled : Entitled places maker) (placed : maker.price ≈ price)
    (priced : 0 < price) (nonneg : 0 ≤ listing.shareOf order total maker)
    (live : pass.taker.isCompleted = false)
    (allotted : pass.allot listing now total price maker = .ok (given, after)) :
    ∃ trades, Allotted listing now order total maker (after, trades) ∧
      given.trades.toList = pass.trades.toList ++ trades ∧ given.completed = pass.completed ∧
      Owing places order owed given := by
  obtain ⟨portion_nonneg, portion_le⟩ := entitled.portion_bounds nonneg
  have covers := owing.covers
  simp only [Pass.allot, bind_eq_ok] at allotted
  obtain ⟨share, shared, available, offered, need, needed, rest⟩ := allotted
  have share_value : (listing.floorBase share).value = listing.shareOf order total maker := by
    rw [← shareOf_of_terms owing.terms, Listing.shareOf, shared]
  have amount_value : (((listing.floorBase share).min available).min need).value =
      listing.portion order total maker := by
    rw [Decimal.value_min, Decimal.value_min, share_value,
      entitled.exact.value_of_availableAt offered, owing.exact.value_of_availableAt needed,
      ← Listing.portion]
    -- what is left of the order covers the share, so it does not count in the minimum
    exact min_eq_left (by linarith)
  split_ifs at rest with nothing
  · cases rest
    rw [Decimal.nonpos_iff, amount_value] at nothing
    exact ⟨[], .spared nothing, by simp, rfl,
      { owing with covers := by linarith }⟩
  · obtain ⟨product, multiplied, settled⟩ := (bind_eq_ok _ _ _).mp rest
    have deal : Deal listing pass.taker maker price _ _ := .of_share live entitled.live
      entitled.limit placed priced offered needed nothing multiplied
    rw [Decimal.not_nonpos_iff, amount_value] at nothing
    obtain ⟨gave, took, pushed, reported, -⟩ := settle_eq_ok settled
    obtain ⟨exact, left, done⟩ :=
      taker_of_settle fewer owing.exact (Or.inr entitled.exact) deal settled
    rw [amount_value] at left
    have terms := (Order.terms_fill took).trans owing.terms
    rw [Trade.between_of_terms _ _ _ _ owing.terms rfl] at pushed
    have fate : Allotted listing now order total maker (after, [Trade.between order maker price
        (((listing.floorBase share).min available).min need) (listing.floorQuote product) now]) :=
      .traded nothing amount_value (Decimal.equiv_symm placed) ⟨product, multiplied, rfl⟩ rfl gave
    exact ⟨_, fate, by rw [pushed, Array.toList_push], reported,
      ⟨exact, terms, done.mp, by rw [left]; linarith⟩⟩

theorem allotted_of_nothing {makers : List Order}
    (nothing : ∀ maker ∈ makers, listing.shareOf order total maker ≤ 0) :
    List.Forall₂ (Allotted listing now order total) makers
      (makers.map fun maker => (maker, [])) := by
  rw [List.forall₂_map_right_iff, List.forall₂_same]
  exact fun maker member => .spared (min_le_of_left_le (nothing maker member))

theorem Owing.nothing {makers : List Order}
    (owing : Owing places order ((makers.map (listing.shareOf order total)).sum + owed) pass)
    (owed_nonneg : 0 ≤ owed) (nonneg : ∀ maker ∈ makers, 0 ≤ listing.shareOf order total maker)
    (done : pass.taker.isCompleted = true) :
    ∀ maker ∈ makers, listing.shareOf order total maker ≤ 0 := by
  intro maker member
  have covers := owing.covers
  rw [owing.spent done] at covers
  have most := List.single_le_sum (List.forall_mem_map.mpr nonneg) _ (List.mem_map_of_mem member)
  linarith

theorem Owing.less {more : ℚ} (owing : Owing places order more pass) (fewer : owed ≤ more) :
    Owing places order owed pass := { owing with covers := fewer.trans owing.covers }

theorem sum_nonneg_of_shares {makers : List Order}
    (nonneg : ∀ maker ∈ makers, 0 ≤ listing.shareOf order total maker) :
    0 ≤ (makers.map (listing.shareOf order total)).sum :=
  List.sum_nonneg (List.forall_mem_map.mpr nonneg)

/-- What a walk gives to its makers. Those that are done are reported, the others are kept. -/
structure Gives (listing : Listing) (now : Instant) (order : Order) (total : Decimal) (pass : Pass)
    (makers : List Order) (fates : List (Order × List Trade)) (given : Pass) (kept : List Order) :
    Prop where
  allotted : List.Forall₂ (Allotted listing now order total) makers fates
  kept_eq : kept = (fates.map Prod.fst).filter fun record => !record.isCompleted
  trades : given.trades.toList = pass.trades.toList ++ fates.flatMap Prod.snd
  completed : given.completed.toList =
    pass.completed.toList ++ (fates.map Prod.fst).filter fun record => record.isCompleted

theorem Gives.nil (pass : Pass) : Gives listing now order total pass [] [] pass [] :=
  ⟨.nil, rfl, by simp, by simp⟩

theorem Gives.append {middle : Pass} {near far kept others : List Order}
    {fates fates' : List (Order × List Trade)}
    (first : Gives listing now order total pass near fates middle kept)
    (second : Gives listing now order total middle far fates' given others) :
    Gives listing now order total pass (near ++ far) (fates ++ fates') given (kept ++ others) where
  allotted := List.rel_append first.allotted second.allotted
  kept_eq := by rw [first.kept_eq, second.kept_eq, List.map_append, List.filter_append]
  trades := by rw [second.trades, first.trades, List.append_assoc, List.flatMap_append]
  completed := by
    rw [second.completed, first.completed, List.append_assoc, List.map_append, List.filter_append]

theorem Gives.spare {makers : List Order} (pass : Pass)
    (nothing : ∀ maker ∈ makers, listing.shareOf order total maker ≤ 0)
    (live : ∀ maker ∈ makers, maker.isCompleted = false) :
    Gives listing now order total pass makers (makers.map fun maker => (maker, [])) pass
      makers := by
  have records : (makers.map fun maker => (maker, ([] : List Trade))).map Prod.fst = makers := by
    simp [Function.comp_def]
  have stays : makers.filter (fun record => !record.isCompleted) = makers :=
    List.filter_eq_self.mpr fun maker member => by simp [live maker member]
  have leaves : makers.filter (fun record => record.isCompleted) = [] :=
    List.filter_eq_nil_iff.mpr fun maker member => by simp [live maker member]
  refine ⟨allotted_of_nothing nothing, ?_, by simp [List.flatMap_map], ?_⟩
  · rw [records, stays]
  · rw [records, leaves, List.append_nil]

theorem Gives.congr {total' : Decimal} {makers kept : List Order}
    {fates : List (Order × List Trade)}
    (same : listing.shareOf order total = listing.shareOf order total')
    (gives : Gives listing now order total pass makers fates given kept) :
    Gives listing now order total' pass makers fates given kept :=
  { gives with allotted := gives.allotted.imp fun maker _ fate => fate.congr (congrFun same maker) }

theorem Owing.allotQueue {queue others : OrderQueue} (fewer : listing.baseScale ≤ places)
    (owing : Owing places order ((queue.map (listing.shareOf order total)).sum + owed) pass)
    (owed_nonneg : 0 ≤ owed) (entitled : ∀ maker ∈ queue, Entitled places maker)
    (placed : ∀ maker ∈ queue, maker.price ≈ price) (priced : 0 < price)
    (nonneg : ∀ maker ∈ queue, 0 ≤ listing.shareOf order total maker)
    (walk : pass.allotQueue listing now total price queue = .ok (given, others)) :
    ∃ fates, List.Forall₂ (Allotted listing now order total) queue fates ∧
      others = fates.map Prod.fst ∧
      given.trades.toList = pass.trades.toList ++ fates.flatMap Prod.snd ∧
      given.completed = pass.completed ∧ Owing places order owed given := by
  induction queue generalizing pass given others with
  | nil =>
      cases walk
      exact ⟨[], .nil, rfl, by simp, rfl, by simpa using owing⟩
  | cons maker rest ih =>
      rw [Pass.allotQueue] at walk
      split_ifs at walk with stop
      · cases walk
        have none := owing.nothing owed_nonneg nonneg stop
        refine ⟨_, allotted_of_nothing none, by simp [Function.comp_def], by simp, rfl, ?_⟩
        exact owing.less (le_add_of_nonneg_left (sum_nonneg_of_shares nonneg))
      · obtain ⟨first_entitled, rest_entitled⟩ := List.forall_mem_cons.mp entitled
        obtain ⟨first_placed, rest_placed⟩ := List.forall_mem_cons.mp placed
        obtain ⟨first_nonneg, rest_nonneg⟩ := List.forall_mem_cons.mp nonneg
        simp only [bind_eq_ok, return_eq_ok] at walk
        obtain ⟨⟨met, after⟩, allotted, ⟨last, left⟩, further, same⟩ := walk
        cases same
        rw [List.map_cons, List.sum_cons, add_assoc] at owing
        have later_nonneg := add_nonneg (sum_nonneg_of_shares rest_nonneg) owed_nonneg
        obtain ⟨trades, fate, pushed, reported, next⟩ := owing.allot fewer later_nonneg
          first_entitled first_placed priced first_nonneg (Bool.eq_false_iff.mpr stop) allotted
        obtain ⟨fates, all, records, recorded, reported', final⟩ :=
          ih next rest_entitled rest_placed rest_nonneg further
        refine ⟨(after, trades) :: fates, .cons fate all, by rw [records]; rfl, ?_,
          reported'.trans reported, final⟩
        rw [recorded, pushed, List.append_assoc, List.flatMap_cons]

theorem Owing.allotLadder {symbol : String} {side : Side} {ladder left : Ladder}
    (fewer : listing.baseScale ≤ places)
    (owing : Owing places order (ladder.orders.map (listing.shareOf order total)).sum pass)
    (formed : ladder.WellFormed symbol side)
    (entitled : ∀ maker ∈ ladder.orders, Entitled places maker)
    (nonneg : ∀ maker ∈ ladder.orders, 0 ≤ listing.shareOf order total maker)
    (walk : pass.allotLadder listing now total ladder = .ok (given, left)) :
    ∃ fates, Gives listing now order total pass ladder.orders fates given left.orders := by
  induction ladder generalizing pass given left with
  | nil =>
      cases walk
      exact ⟨[], .nil pass⟩
  | cons level rest ih =>
      simp only [Pass.allotLadder, bind_eq_ok] at walk
      obtain ⟨⟨met, orders⟩, queue, tail⟩ := walk
      obtain ⟨-, placed⟩ := formed.first
      rw [Ladder.orders_cons] at entitled nonneg ⊢
      rw [Ladder.orders_cons, List.map_append, List.sum_append] at owing
      obtain ⟨near_entitled, far_entitled⟩ := List.forall_mem_append.mp entitled
      obtain ⟨near_nonneg, far_nonneg⟩ := List.forall_mem_append.mp nonneg
      obtain ⟨fates, all, rfl, recorded, reported, next⟩ := owing.allotQueue fewer
        (sum_nonneg_of_shares far_nonneg) near_entitled
        (fun maker member => (placed maker member).2) (formed.price_pos level List.mem_cons_self)
        near_nonneg queue
      have near : Gives listing now order total pass level.orders fates
          (met.complete (OrderQueue.separate (fates.map Prod.fst)).1)
          (OrderQueue.separate (fates.map Prod.fst)).2 :=
        ⟨all, rfl, recorded, by simp [Pass.complete, OrderQueue.separate, reported]⟩
      have told : Owing places order ((Ladder.orders rest).map (listing.shareOf order total)).sum
          (met.complete (OrderQueue.separate (fates.map Prod.fst)).1) :=
        ⟨next.exact, next.terms, next.spent, next.covers⟩
      split_ifs at tail with stop
      · -- nothing is left for the levels behind, and nothing falls to them
        cases tail
        rw [← add_zero (List.sum _)] at told
        have none := told.nothing le_rfl far_nonneg stop
        rw [Ladder.orders_keep]
        exact ⟨_, near.append (.spare _ none fun maker member => (far_entitled maker member).live)⟩
      · obtain ⟨⟨last, others⟩, further, same⟩ := (bind_eq_ok _ _ _).mp tail
        cases same
        obtain ⟨fates', far⟩ := ih told formed.tail far_entitled far_nonneg further
        rw [Ladder.orders_keep]
        exact ⟨_, near.append far⟩

theorem eq_nil_of_amounts_nonpos {makers : List Order}
    (asked : ∀ maker ∈ makers, 0 < maker.amount.value)
    (nothing : (makers.map fun maker => maker.amount.value).sum ≤ 0) : makers = [] := by
  rw [List.eq_nil_iff_forall_not_mem]
  intro maker member
  have amounts := List.forall_mem_map.mpr fun maker member => (asked maker member).le
  have most := List.single_le_sum amounts _ (List.mem_map_of_mem member)
  exact absurd (asked maker member) (not_lt.mpr (most.trans nothing))

/-- Sharing an order out gives every maker that it crosses its portion. -/
theorem Owing.apportion {symbol : String} {side : Side} {ladder left : Ladder}
    (measured : Measured listing places (Ladder.orders (ladder.divide side order.price).1))
    (owing : Owing places order (((Ladder.orders (ladder.divide side order.price).1).map
      (listing.shareOf order total)).sum) (.start order))
    (own : order.side = side) (formed : ladder.WellFormed symbol side.opposite)
    (entitled : ∀ maker ∈ Ladder.orders (ladder.divide side order.price).1, Entitled places maker)
    (whole : total.value = ((Ladder.orders (ladder.divide side order.price).1).map
      fun maker => maker.amount.value).sum)
    (walk : (start order).apportion listing now ladder = .ok (given, left)) :
    ∃ fates kept, Gives listing now order total (.start order)
        (Ladder.orders (ladder.divide side order.price).1) fates given kept ∧
      left.orders = kept ++ Ladder.orders (ladder.divide side order.price).2 := by
  subst own
  have split := Ladder.divide_append order.price formed.sorted
  have within := (formed.divide order.side order.price).1
  have asked : ∀ maker ∈ Ladder.orders (ladder.divide order.side order.price).1,
      0 < maker.amount.value := by
    intro maker member
    obtain ⟨level, known, inside⟩ := Ladder.mem_orders.mp member
    exact Decimal.pos_iff.mp (within.rests level known maker inside).amount_pos
  obtain ⟨totals, sum, mapped, added, sum_value⟩ := Ladder.exists_total
    (fun maker member => (measured.grid maker member).1)
    (fun maker member => (asked maker member).le) measured.small
  have same : sum ≈ total := (Decimal.equiv_iff_value _ _).mpr (sum_value.trans whole.symm)
  obtain ⟨_, mapped', walk⟩ := (bind_eq_ok _ _ _).mp walk
  obtain rfl := Except.ok.inj (mapped.symm.trans mapped')
  obtain ⟨_, added', walk⟩ := (bind_eq_ok _ _ _).mp walk
  obtain rfl := Except.ok.inj (added.symm.trans added')
  split_ifs at walk with nothing
  · rw [Decimal.nonpos_iff, sum_value] at nothing
    have nobody := eq_nil_of_amounts_nonpos asked nothing
    cases walk
    refine ⟨[], [], by rw [nobody]; exact .nil _, ?_⟩
    nth_rewrite 1 [← split]
    rw [Ladder.orders_append, nobody]
  · rw [Decimal.not_nonpos_iff, ← Decimal.pos_iff] at nothing
    obtain ⟨⟨last, others⟩, shared, equal⟩ := (bind_eq_ok _ _ _).mp walk
    cases equal
    have shares : listing.shareOf order sum = listing.shareOf order total :=
      funext fun _ => shareOf_congr same nothing
    rw [← shares] at owing
    obtain ⟨fates, gives⟩ := owing.allotLadder measured.base_le within entitled
      (fun maker member => shareOf_nonneg (owing.exact.left_nonneg.trans owing.exact.left_le)
        (asked maker member).le (Decimal.pos_iff.mp nothing)) shared
    exact ⟨fates, _, gives.congr shares, Ladder.orders_append _ _⟩

end Shares

end Pass

namespace Market

/-- The resting limit orders within the limit of an order, best price first and in arrival
order within a price. -/
def crossing (market : Market) (order : Order) : List Order :=
  Ladder.orders ((market.book.ladder order.side.opposite).divide order.side order.price).1

def beyond (market : Market) (order : Order) : List Order :=
  Ladder.orders ((market.book.ladder order.side.opposite).divide order.side order.price).2

/-- What is left when an order was shared out over the makers it crosses, where `fates`
tells what became of each of them: makers that are done are reported and leave, and so do
levels without orders; nothing else changes. -/
structure SharedOut (now : Instant) (order : Order) (total : Decimal) (market : Market)
    (fates : List (Order × List Trade)) (pass : Pass) (after : Market) : Prop where
  allotted : List.Forall₂ (Allotted market.listing now order total) (market.crossing order) fates
  trades : pass.trades.toList = fates.flatMap Prod.snd
  completed : pass.completed.toList =
    (fates.map Prod.fst).filter fun record => record.isCompleted
  standing : (after.book.ladder order.side.opposite).orders =
    (fates.map Prod.fst).filter (fun record => !record.isCompleted) ++ market.beyond order
  levels : Ladder.Remainder (market.book.ladder order.side.opposite)
    (after.book.ladder order.side.opposite)
  occupied : ∀ level ∈ after.book.ladder order.side.opposite, level.orders ≠ []
  own_ladder : after.book.ladder order.side = market.book.ladder order.side
  queues : ∀ side, after.book.queue side = market.book.queue side
  frame : after = { market with book := after.book }

section SharedOut
variable {places : Nat} {now : Instant} {market after : Market} {order : Order} {pass : Pass}
  {total : Decimal}

theorem entitled_of_crossing (formed : market.book.WellFormed market.symbol)
    (measured : Measured market.listing places (order :: market.crossing order)) {maker : Order}
    (member : maker ∈ market.crossing order) : Pass.Entitled places maker := by
  obtain ⟨level, within, inside⟩ := Ladder.mem_orders.mp member
  have near := ((formed.ladders order.side.opposite).divide order.side order.price).1
  have live := (near.rests level within maker inside).live
  have limit := (near.placed level within maker inside).1
  have counted := (measured.fits (List.mem_cons_of_mem _ member)).counted live
  exact ⟨counted.of_exact (by simp [Order.isMarketBuy, limit]), live, limit⟩

theorem limit_of_apportions {listing : Listing} (covered : listing.apportions order = true) :
    order.kind = .limit := by
  unfold Listing.apportions at covered
  split at covered
  · simp only [IssuanceWindow.appliesTo, Bool.and_eq_true, decide_eq_true_eq] at covered
    exact covered.1.1
  · cases covered

theorem shared_out (formed : market.book.WellFormed market.symbol)
    (covered : market.listing.apportions order = true) (live : order.isCompleted = false)
    (unfilled : order.filledAmount ≈ 0)
    (measured : Measured market.listing places (order :: market.crossing order))
    (whole : total.value = ((market.crossing order).map fun maker => maker.amount.value).sum)
    (enough : ((market.crossing order).map (market.listing.shareOf order total)).sum ≤
      order.amount.value)
    (matched : market.matchApportioned now (.start order) = .ok (pass, after)) :
    ∃ fates, market.SharedOut now order total fates pass after := by
  have stage := matchApportioned_stage formed matched
  have quantity : order.isMarketBuy = false := by
    simp [Order.isMarketBuy, limit_of_apportions covered]
  have exact := ((measured.fits List.mem_cons_self).counted live).of_exact quantity
  have left : order.left = order.amount.value := by
    rw [Order.left, (Decimal.equiv_iff_value _ _).mp unfilled, Decimal.value_zero, sub_zero]
  have owing : Pass.Owing places order
      ((market.crossing order).map (market.listing.shareOf order total)).sum (.start order) :=
    ⟨exact, rfl, fun done => absurd (done.symm.trans live) (by decide), enough.trans left.ge⟩
  simp only [matchApportioned, Pass.start, covered, ↓reduceIte, bind_eq_ok, return_eq_ok] at matched
  obtain ⟨⟨given, ladder⟩, shared, same⟩ := matched
  cases same
  obtain ⟨fates, kept, gives, standing⟩ := owing.apportion measured.tail rfl (formed.ladders _)
    (fun maker member => entitled_of_crossing formed measured member) whole shared
  refine ⟨fates, gives.allotted, gives.trades, gives.completed, ?_, stage.ladder_left,
    (stage.formed.ladders order.side.opposite).occupied, stage.own_ladder, fun _ => rfl,
    stage.frame⟩
  rw [OrderBook.ladder_setLadder, ← gives.kept_eq]
  exact standing

end SharedOut

end Market

/-- An open order that nothing is filled of and that falls into the issuance window, where
the shares of the makers it crosses do not exceed it. Each of them is given its portion,
the smaller of its share and of what it has left, in one trade at its price, in the order
of price and arrival; it leaves when it is done, and nothing else changes. In any other
reachable book, where the same makers arrived in another order, they are given the same. -/
theorem pro_rata_by_share {listing : Listing} {actions : List Action} {history : History}
    {market : Market} (run : Market.replay listing actions = .ok (history, market))
    {order : Order} {places : Nat} (covered : listing.apportions order = true)
    (live : order.isCompleted = false) (unfilled : order.filledAmount ≈ 0)
    (measured : Measured listing places (order :: market.crossing order)) {total : Decimal}
    (whole : total.value = ((market.crossing order).map fun maker => maker.amount.value).sum)
    (enough : ((market.crossing order).map (listing.shareOf order total)).sum ≤ order.amount.value)
    {now : Instant} {pass : Pass} {after : Market}
    (matched : market.matchApportioned now (.start order) = .ok (pass, after)) :
    (∃ fates, market.SharedOut now order total fates pass after) ∧
      ∀ {actions' : List Action} {history' : History} {market' : Market} {now' : Instant}
        {pass' : Pass} {after' : Market},
        Market.replay listing actions' = .ok (history', market') →
        (market'.crossing order).Perm (market.crossing order) →
        market'.matchApportioned now' (.start order) = .ok (pass', after') →
        (pass'.trades.toList.map Trade.given).Perm (pass.trades.toList.map Trade.given) := by
  obtain ⟨rfl, formed⟩ := Market.wellFormed_of_replay run
  obtain ⟨fates, shared⟩ :=
    Market.shared_out formed covered live unfilled measured whole enough matched
  refine ⟨⟨fates, shared⟩, ?_⟩
  intro actions' history' market' now' pass' after' run' same matched'
  obtain ⟨listed, formed'⟩ := Market.wellFormed_of_replay run'
  obtain ⟨fates', shared'⟩ := Market.shared_out formed' (listed ▸ covered) live unfilled
    (listed ▸ measured.perm (same.cons order)) (whole.trans (same.map _).sum_eq.symm)
    (by rw [listed, (same.map _).sum_eq]; exact enough) matched'
  rw [shared.trades, shared'.trades, given_of_allotted shared.allotted,
    given_of_allotted shared'.allotted, listed]
  exact same.filterMap _

theorem sample_by_share : ∃ history market pass after fates,
    Market.replay .issuing History.issueAsks = .ok (history, market) ∧
      market.matchApportioned default (.start History.issueBid) = .ok (pass, after) ∧
      pass.trades.toList.map (fun trade => (trade.sellNumber, trade.amount.coefficient)) =
        [("first", 2), ("second", 3)] ∧
      market.SharedOut default History.issueBid (.ofParts 10 0) fates pass after := by
  have run : ∃ history market pass after,
      Market.replay .issuing History.issueAsks = .ok (history, market) ∧
        market.matchApportioned default (.start History.issueBid) = .ok (pass, after) ∧
        market.crossing History.issueBid =
          [History.issueAsk "first" (.ofParts 4 0), History.issueAsk "second" (.ofParts 6 0)] ∧
        pass.trades.toList.map (fun trade => (trade.sellNumber, trade.amount.coefficient)) =
          [("first", 2), ("second", 3)] :=
    ⟨_, _, _, _, rfl, rfl, rfl, by decide +kernel⟩
  obtain ⟨history, market, pass, after, ran, matched, crossing, trades⟩ := run
  have measured : Measured .issuing 8 (History.issueBid :: market.crossing History.issueBid) := by
    rw [crossing]
    refine ⟨by decide, by decide, by decide +kernel, by decide +kernel, ?_⟩
    norm_num [History.issueAsk, History.issueBid, Order.limit, Decimal.value_ofParts, tenTo,
      Decimal.bound]
  have whole : (Decimal.ofParts 10 0).value =
      ((market.crossing History.issueBid).map fun maker => maker.amount.value).sum := by
    rw [crossing]
    norm_num [History.issueAsk, Order.limit, Decimal.value_ofParts, tenTo]
  have enough : ((market.crossing History.issueBid).map
      (Listing.issuing.shareOf History.issueBid (.ofParts 10 0))).sum ≤
        History.issueBid.amount.value := by
    have four : proRata (.ofParts 5 0) (.ofParts 4 0) (.ofParts 10 0) = .ok (.ofParts 2 0) := rfl
    have six : proRata (.ofParts 5 0) (.ofParts 6 0) (.ofParts 10 0) = .ok (.ofParts 3 0) := rfl
    have two : Listing.issuing.floorBase (.ofParts 2 0) = .ofParts 2 0 := rfl
    have three : Listing.issuing.floorBase (.ofParts 3 0) = .ofParts 3 0 := rfl
    rw [crossing]
    simp only [List.map_cons, List.map_nil, Listing.shareOf, History.issueAsk, History.issueBid,
      Order.limit, four, six, two, three]
    norm_num [Decimal.value_ofParts, tenTo]
  obtain ⟨⟨fates, shared⟩, -⟩ := pro_rata_by_share ran (by decide) (by decide) (by decide) measured
    whole enough matched
  exact ⟨history, market, pass, after, fates, ran, matched, trades, shared⟩

end SpotExchange
