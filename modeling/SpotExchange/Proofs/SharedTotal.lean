import SpotExchange.Proofs.ProRataShares
import SpotExchange.Proofs.UncrossedBook

/-!
Sharing an order out changes who is given how much of it, not how much is given. Every deal
takes as much off what is left of the order as off what is left of its makers, so the
difference of the two stays as it is; and matching goes on until one of them is used up.
-/

namespace SpotExchange

/-- Listings that differ in nothing but their issuance windows. -/
def Listing.Twin (a b : Listing) : Prop := b = { a with issuance := b.issuance }

section Twin
variable {a b : Listing} (twin : a.Twin b)
include twin

theorem Listing.Twin.baseScale : a.baseScale = b.baseScale := by rw [twin]

theorem Listing.Twin.name : a.name = b.name := by rw [twin]

theorem Listing.Twin.floorQuote (money : Decimal) : a.floorQuote money = b.floorQuote money := by
  rw [twin]
  rfl

end Twin

namespace Order

/-- An exact order that is done just when nothing is left of it. -/
structure Steady (places : Nat) (order : Order) : Prop where
  exact : order.Exact places
  done : order.isCompleted = true ↔ order.left = 0

theorem Exact.steady {places : Nat} {order : Order} (exact : order.Exact places)
    (live : order.isCompleted = false) : order.Steady places where
  exact := exact
  done := by simp [live, (exact.left_pos live).ne']

end Order

namespace Pass

section Balance
variable {places : Nat} {listing : Listing} {now : Instant} {pass later : Pass}

theorem dealings_balance {makers left : Multiset Order} (fewer : listing.baseScale ≤ places)
    (steps : Dealings listing now pass makers later left) (taken : pass.taker.Steady places)
    (given : ∀ maker ∈ makers, maker.Steady places) :
    later.taker.Steady places ∧ (∀ record ∈ left, record.Steady places) ∧
      later.taker.left - (left.map Order.left).sum =
        pass.taker.left - (makers.map Order.left).sum := by
  induction steps with
  | refl => exact ⟨taken, given, rfl⟩
  | report _ _ ih => exact ih
  | deal steps terms settled ih =>
      obtain ⟨taker, records, balance⟩ := ih
      obtain ⟨maker, others⟩ := Multiset.forall_mem_cons.mp records
      have grid := terms.grid fewer (Or.inr taker.exact) (Or.inr maker.exact)
      obtain ⟨gave, -, -, -, -⟩ := settle_eq_ok settled
      obtain ⟨taker_exact, taker_left, taker_done⟩ :=
        taker_of_settle fewer taker.exact (Or.inr maker.exact) terms settled
      obtain ⟨maker_exact, maker_left, maker_done⟩ := maker.exact.fill terms.maker_open grid
        terms.nonneg (maker.exact.within terms.within_maker) gave
      -- both orders of the deal lose its amount
      refine ⟨⟨taker_exact, taker_done⟩,
        Multiset.forall_mem_cons.mpr ⟨⟨maker_exact, maker_done⟩, others⟩, ?_⟩
      rw [Multiset.map_cons, Multiset.sum_cons] at balance ⊢
      rw [taker_left, maker_left]
      linarith

theorem Cleared.balance {makers kept : List Order}
    (cleared : Cleared listing now pass makers later kept) (fewer : listing.baseScale ≤ places)
    (taken : pass.taker.Steady places)
    (given : ∀ maker ∈ makers, maker.Steady places) :
    later.taker.Steady places ∧ (∀ record ∈ kept, record.Steady places) ∧
      later.taker.left - (kept.map Order.left).sum =
        pass.taker.left - (makers.map Order.left).sum := by
  obtain ⟨done, steps, -, finished, -⟩ := cleared
  obtain ⟨taker, records, balance⟩ := dealings_balance fewer steps taken given
  obtain ⟨kept_steady, done_steady⟩ : (∀ record ∈ kept, record.Steady places) ∧
      ∀ record ∈ done, record.Steady places :=
    ⟨fun record member => records record (Multiset.mem_add.mpr (Or.inl member)),
      fun record member => records record (Multiset.mem_add.mpr (Or.inr member))⟩
  have nothing : (done.map Order.left).sum = 0 :=
    List.sum_eq_zero (List.forall_mem_map.mpr fun record member =>
      (done_steady record member).done.mp (finished record member))
  simp only [Multiset.map_add, Multiset.map_coe, Multiset.sum_add, Multiset.sum_coe, nothing,
    add_zero] at balance
  exact ⟨taker, kept_steady, balance⟩

theorem sweepLadder_beyond {limit : Decimal} {symbol : String} {side : Side} {ladder left : Ladder}
    (live : pass.taker.isCompleted = false) (formed : ladder.WellFormed symbol side)
    (walk : pass.sweepLadder listing now (some limit) ladder = .ok (later, left)) :
    (left.divide pass.taker.side limit).2 = (ladder.divide pass.taker.side limit).2 := by
  induction ladder generalizing pass later left with
  | nil =>
      cases walk
      rfl
  | cons level rest ih =>
      rcases sweepLadder_cons walk with ⟨-, -, rfl⟩ | ⟨within, met, orders, queue, tail⟩
      · rfl
      · have passed := Ladder.beyond_cons level within rest
        rcases tail with ⟨-, -, rfl⟩ | ⟨-, more, further⟩
        · exact (Ladder.beyond_keep within orders rest).trans passed.symm
        · obtain ⟨waiting, placed⟩ := formed.first
          obtain ⟨⟨_, steps, -, -, -⟩, -⟩ := sweepQueue_cleared live waiting
            (fun order member => Or.inr (placed order member).1) queue
          have side := Order.side_of_terms (dealings_terms steps).1
          rw [passed, ← side]
          exact ih more formed.tail further

theorem apportion_beyond {symbol : String} {ladder left : Ladder}
    (formed : ladder.WellFormed symbol pass.taker.side.opposite)
    (shared : pass.apportion listing now ladder = .ok (later, left)) :
    (left.divide pass.taker.side pass.taker.price).2 =
      (ladder.divide pass.taker.side pass.taker.price).2 := by
  simp only [apportion, bind_eq_ok] at shared
  obtain ⟨totals, -, total, -, rest⟩ := shared
  split_ifs at rest with nothing
  · cases rest
    rfl
  · obtain ⟨⟨last, others⟩, walk, equal⟩ := (bind_eq_ok _ _ _).mp rest
    cases equal
    obtain ⟨near, far⟩ := formed.divide pass.taker.side pass.taker.price
    have swept := allotLadder_swept near walk
    -- whatever is left of the crossing levels is at a price that crosses
    have crossing : ∀ level ∈ others,
        pass.taker.side.crosses pass.taker.price level.price = true := by
      intro level member
      obtain ⟨earlier, known, price, -⟩ := swept.remainder.exists_level member
      rw [price]
      exact (List.mem_filter.mp known).2
    have none : others.filter (fun level =>
        !pass.taker.side.crosses pass.taker.price level.price) = [] :=
      List.filter_eq_nil_iff.mpr fun level member => by simp [crossing level member]
    simp only [Ladder.divide, List.filter_append, none, List.filter_filter, Bool.and_self,
      List.nil_append]

end Balance

/-- Passes whose takers ask for the same and have as much left of it. -/
structure Even (places : Nat) (a b : Pass) : Prop where
  steady : a.taker.Steady places
  other : b.taker.Steady places
  terms : a.taker.terms = b.taker.terms
  left : a.taker.left = b.taker.left

section Even
variable {places : Nat} {listing listing' : Listing} {now now' : Instant} {a b : Pass}
  (twin : listing.Twin listing')

theorem Even.isCompleted (even : Even places a b) : a.taker.isCompleted = b.taker.isCompleted := by
  rw [Bool.eq_iff_iff, even.steady.done, even.other.done, even.left]

theorem Even.filledAmount (even : Even places a b) :
    a.taker.filledAmount ≈ b.taker.filledAmount := by
  have left := even.left
  rw [Order.left, Order.left, Order.amount_of_terms even.terms] at left
  rw [Decimal.equiv_iff_value]
  linarith

include twin

theorem Even.settle (even : Even places a b) (fewer : listing.baseScale ≤ places)
    {maker after after' : Order} {met met' : Pass} {price amount money amount' money' : Decimal}
    (given : maker.Counted places) (amounts : amount ≈ amount')
    (terms : Deal listing a.taker maker price amount money)
    (terms' : Deal listing' b.taker maker price amount' money')
    (settled : a.settle now maker price amount money = .ok (met, after))
    (settled' : b.settle now' maker price amount' money' = .ok (met', after')) :
    Even places met met' ∧ after.Alike after' := by
  obtain ⟨gave, took, -, -, -⟩ := settle_eq_ok settled
  obtain ⟨gave', took', -, -, -⟩ := settle_eq_ok settled'
  obtain ⟨exact, left, done⟩ := taker_of_settle fewer even.steady.exact given terms settled
  obtain ⟨exact', left', done'⟩ :=
    taker_of_settle (twin.baseScale ▸ fewer) even.other.exact given terms' settled'
  have moneys : money ≈ money' := by
    obtain ⟨product, multiplied, rfl⟩ := terms.money_cut
    obtain ⟨product', multiplied', rfl⟩ := terms'.money_cut
    obtain ⟨_, found, near⟩ :=
      (Decimal.mul_alike amounts (Decimal.equiv_rfl (a := price))).of_ok multiplied
    obtain rfl := Except.ok.inj (found.symm.trans multiplied')
    rw [← twin.floorQuote]
    exact Decimal.truncate_alike near _
  obtain ⟨_, found, alike⟩ := ((Order.Alike.refl maker).fill amounts moneys).of_ok gave
  obtain rfl := Except.ok.inj (found.symm.trans gave')
  refine ⟨⟨⟨exact, done⟩, ⟨exact', done'⟩, ?_, ?_⟩, alike⟩
  · rw [Order.terms_fill took, Order.terms_fill took', even.terms]
  · rw [left, left', even.left, (Decimal.equiv_iff_value _ _).mp amounts]

theorem Even.meet (even : Even places a b) (fewer : listing.baseScale ≤ places)
    {maker after after' : Order} {met met' : Pass} (live : a.taker.isCompleted = false)
    (meets : Meets places a.taker maker) (meeting : a.meet listing now maker = .ok (met, after))
    (meeting' : b.meet listing' now' maker = .ok (met', after')) :
    Even places met met' ∧ after.Alike after' := by
  obtain ⟨available, offered, fate⟩ := meet_exact even.steady.exact live meets meeting
  obtain ⟨_, offered', fate'⟩ := meet_exact even.other.exact (even.isCompleted ▸ live)
    (meets.of_terms even.terms) meeting'
  rw [← dealPrice_of_terms even.terms, ← even.left] at fate'
  rw [← dealPrice_of_terms even.terms, ← twin.baseScale] at offered'
  obtain rfl := Except.ok.inj (offered.symm.trans offered')
  -- as much is left of both takers, so both trade with the maker or neither does
  rcases fate with ⟨nothing, rfl, rfl⟩ | ⟨amount, money, some, value, terms, settled⟩ <;>
    rcases fate' with ⟨nothing', rfl, rfl⟩ | ⟨amount', money', some', value', terms', settled'⟩
  · exact ⟨even, .refl _⟩
  · exact absurd some' (not_lt.mpr nothing)
  · exact absurd some (not_lt.mpr nothing')
  · have amounts : amount ≈ amount' := (Decimal.equiv_iff_value _ _).mpr (value.trans value'.symm)
    exact even.settle twin fewer meets.counted amounts terms terms' settled settled'

omit twin in
theorem Even.fate (even : Even places a b) {after after' : Order} (alike : after.Alike after')
    {told told' : Pass} {front front' : OrderQueue}
    (fate : after.isCompleted = true ∧ told = a.complete [after] ∧ front = [] ∨
      after.isCompleted = false ∧ told = a ∧ front = [after])
    (fate' : after'.isCompleted = true ∧ told' = b.complete [after'] ∧ front' = [] ∨
      after'.isCompleted = false ∧ told' = b ∧ front' = [after']) :
    told.taker = a.taker ∧ Even places told told' ∧ OrderQueue.Alike front front' := by
  have same := alike.isCompleted
  rcases fate with ⟨done, rfl, rfl⟩ | ⟨still, rfl, rfl⟩ <;>
    rcases fate' with ⟨done', rfl, rfl⟩ | ⟨still', rfl, rfl⟩
  · exact ⟨rfl, ⟨even.steady, even.other, even.terms, even.left⟩, .nil⟩
  · simp [done, still'] at same
  · simp [still, done'] at same
  · exact ⟨rfl, even, .cons alike .nil⟩

theorem Even.sweepQueue (even : Even places a b) (fewer : listing.baseScale ≤ places)
    {queue kept kept' : OrderQueue} {swept swept' : Pass} (live : a.taker.isCompleted = false)
    (meets : ∀ maker ∈ queue, Meets places a.taker maker)
    (walk : a.sweepQueue listing now queue = .ok (swept, kept))
    (walk' : b.sweepQueue listing' now' queue = .ok (swept', kept')) :
    Even places swept swept' ∧ OrderQueue.Alike kept kept' := by
  induction queue generalizing a b swept swept' kept kept' with
  | nil =>
      cases walk
      cases walk'
      exact ⟨even, .nil⟩
  | cons maker rest ih =>
      obtain ⟨first_meets, rest_meets⟩ := List.forall_mem_cons.mp meets
      obtain ⟨met, after, told, front, meeting, fate, tail⟩ := sweepQueue_cons walk
      obtain ⟨met', after', told', front', meeting', fate', tail'⟩ := sweepQueue_cons walk'
      obtain ⟨met_even, alike⟩ := even.meet twin fewer live first_meets meeting meeting'
      obtain ⟨taker, told_even, fronts⟩ := met_even.fate alike fate fate'
      have same := told_even.isCompleted
      rcases tail with ⟨stop, rfl, rfl⟩ | ⟨more, others, further, rfl⟩ <;>
        rcases tail' with ⟨stop', rfl, rfl⟩ | ⟨more', others', further', rfl⟩
      · exact ⟨told_even, List.rel_append fronts (OrderQueue.Alike.refl rest)⟩
      · simp [stop, more'] at same
      · simp [more, stop'] at same
      · have terms := (taker_of_meet fewer even.steady.exact live first_meets meeting).2
        rw [← taker] at terms
        obtain ⟨last, left⟩ := ih told_even more
          (fun other member => (rest_meets other member).of_terms terms.symm) further further'
        exact ⟨last, List.rel_append fronts left⟩

end Even

end Pass

namespace Market

/-- How much is left of the limit orders on the other side of an order. -/
def opposing (market : Market) (order : Order) : ℚ :=
  ((market.book.ladder order.side.opposite).orders.map Order.left).sum

theorem opposing_of_ladder {market after : Market} {order : Order}
    (same : after.book.ladder order.side.opposite = market.book.ladder order.side.opposite) :
    after.opposing order = market.opposing order := by
  rw [opposing, opposing, same]

/-- A stage in which an order deals with the limit orders within its limit, and what is left of
it goes down as what is left of them does. -/
structure Drawn (places : Nat) (order : Order) (market : Market) (pass later : Pass)
    (after : Market) : Prop where
  taker : later.taker.Steady places
  makers : ∀ maker ∈ (after.book.ladder order.side.opposite).orders, maker.Steady places
  balance : later.taker.left - after.opposing order = pass.taker.left - market.opposing order
  beyond : after.beyond order = market.beyond order
  queue : after.book.queue order.side.opposite = market.book.queue order.side.opposite

section Drawn
variable {places : Nat} {now : Instant} {order : Order} {market middle after : Market}
  {pass between later : Pass}

theorem Drawn.idle (taken : pass.taker.Steady places)
    (given : ∀ maker ∈ (market.book.ladder order.side.opposite).orders, maker.Steady places) :
    Drawn places order market pass pass market := ⟨taken, given, rfl, rfl, rfl⟩

theorem Drawn.trans (first : Drawn places order market pass between middle)
    (second : Drawn places order middle between later after) :
    Drawn places order market pass later after where
  taker := second.taker
  makers := second.makers
  balance := second.balance.trans first.balance
  beyond := second.beyond.trans first.beyond
  queue := second.queue.trans first.queue

theorem Drawn.ofLadder {ladder : Ladder} (fewer : market.listing.baseScale ≤ places)
    (taken : pass.taker.Steady places)
    (given : ∀ maker ∈ (market.book.ladder order.side.opposite).orders, maker.Steady places)
    (swept : Pass.Swept market.listing now pass (market.book.ladder order.side.opposite) later
      ladder)
    (beyond : (ladder.divide order.side order.price).2 =
      ((market.book.ladder order.side.opposite).divide order.side order.price).2) :
    Drawn places order market pass later
      { market with book := market.book.setLadder order.side.opposite ladder } := by
  obtain ⟨taker, makers, balance⟩ := swept.cleared.balance fewer taken given
  refine ⟨taker, ?_, ?_, ?_, rfl⟩
  · rwa [OrderBook.ladder_setLadder]
  · rwa [opposing, opposing, OrderBook.ladder_setLadder]
  · rw [Market.beyond, OrderBook.ladder_setLadder, beyond, Market.beyond]

theorem matchApportioned_drawn (fewer : market.listing.baseScale ≤ places)
    (formed : market.book.WellFormed market.symbol) (taken : pass.taker.Steady places)
    (same : pass.taker.terms = order.terms)
    (given : ∀ maker ∈ (market.book.ladder order.side.opposite).orders, maker.Steady places)
    (matched : market.matchApportioned now pass = .ok (later, after)) :
    Drawn places order market pass later after := by
  have side := Order.side_of_terms same
  have price := Order.price_of_terms same
  simp only [matchApportioned, side] at matched
  split_ifs at matched
  · obtain ⟨⟨last, ladder⟩, shared, equal⟩ := (bind_eq_ok _ _ _).mp matched
    cases equal
    have near := formed.ladders order.side.opposite
    rw [← side] at near shared
    have beyond := Pass.apportion_beyond near shared
    have swept := Pass.apportion_swept near shared
    rw [side] at swept beyond
    rw [price] at beyond
    exact .ofLadder fewer taken given swept beyond
  · cases matched
    exact .idle taken given

theorem matchLadder_drawn (fewer : market.listing.baseScale ≤ places)
    (formed : market.book.WellFormed market.symbol) (taken : pass.taker.Steady places)
    (same : pass.taker.terms = order.terms)
    (given : ∀ maker ∈ (market.book.ladder order.side.opposite).orders, maker.Steady places)
    (matched : market.matchLadder now (some order.price) pass = .ok (later, after)) :
    Drawn places order market pass later after := by
  have side := Order.side_of_terms same
  simp only [matchLadder, side] at matched
  split_ifs at matched with done
  · cases matched
    exact .idle taken given
  · obtain ⟨⟨last, ladder⟩, walk, equal⟩ := (bind_eq_ok _ _ _).mp matched
    cases equal
    have live := Bool.eq_false_iff.mpr done
    have near := formed.ladders order.side.opposite
    have beyond := Pass.sweepLadder_beyond live near walk
    rw [side] at beyond
    exact .ofLadder fewer taken given (Pass.sweepLadder_swept live near walk) beyond

theorem left_of_ladder (order : Order) (formed : market.book.WellFormed market.symbol) :
    market.opposing order =
      ((market.crossing order).map Order.left).sum +
        ((market.beyond order).map Order.left).sum := by
  have split := Ladder.divide_append order.price (formed.ladders order.side.opposite).sorted
  rw [opposing, crossing, beyond, ← List.sum_append, ← List.map_append, ← Ladder.orders_append,
    split]

/-- Where matching went on until the order was done or no limit order was left within its
limit, what is left of it is what it wanted beyond all that those had left. -/
theorem Drawn.left_eq (drawn : Drawn places order market (.start order) later after)
    (formed : market.book.WellFormed market.symbol) (formed' : after.book.WellFormed after.symbol)
    (exhausted : later.taker.isCompleted = true ∨ after.crossing order = []) :
    later.taker.left = max (order.left - ((market.crossing order).map Order.left).sum) 0 := by
  have balance := drawn.balance
  rw [left_of_ladder order formed, left_of_ladder order formed', drawn.beyond] at balance
  change _ = order.left - _ at balance
  -- nothing was taken beyond the limit, so the balance is that of the crossing orders
  have taker_nonneg := drawn.taker.exact.left_nonneg
  rcases exhausted with done | none
  · have makers_nonneg : 0 ≤ ((after.crossing order).map Order.left).sum := by
      refine List.sum_nonneg (List.forall_mem_map.mpr fun maker member => ?_)
      obtain ⟨level, known, inside⟩ := Ladder.mem_orders.mp member
      exact (drawn.makers maker (Ladder.mem_orders.mpr
        ⟨level, (List.mem_filter.mp known).1, inside⟩)).exact.left_nonneg
    rw [drawn.taker.done] at done
    rw [done, max_eq_right]
    linarith
  · rw [none, List.map_nil, List.sum_nil] at balance
    rw [max_eq_left] <;> linarith

theorem Drawn.total_eq (drawn : Drawn places order market (.start order) later after)
    (formed : market.book.WellFormed market.symbol) (formed' : after.book.WellFormed after.symbol)
    (exhausted : later.taker.isCompleted = true ∨ after.crossing order = []) :
    after.opposing order =
      market.opposing order - min order.left ((market.crossing order).map Order.left).sum := by
  have balance := drawn.balance
  rw [drawn.left_eq formed formed' exhausted] at balance
  change _ = order.left - _ at balance
  rcases le_total order.left ((market.crossing order).map Order.left).sum with less | more
  · rw [max_eq_right (sub_nonpos.mpr less)] at balance
    rw [min_eq_left less]
    linarith
  · rw [max_eq_left (sub_nonneg.mpr more)] at balance
    rw [min_eq_right more]
    linarith

/-- The two stages in which an order deals with limit orders go on until it is done or none is
left within its limit; then it goes on to the queue. -/
theorem matchOrder_drawn (fewer : market.listing.baseScale ≤ places)
    (formed : market.book.WellFormed market.symbol) (limit : order.kind = .limit)
    (live : order.isCompleted = false) (taken : order.Counted places)
    (given : ∀ maker ∈ market.book.ordersOf order.side.opposite, maker.Counted places)
    (matched : market.matchOrder now order = .ok (later, after)) :
    ∃ pass swept, Drawn places order market (.start order) pass swept ∧
      (pass.taker.isCompleted = true ∨ swept.crossing order = []) ∧
      swept.matchQueue now pass = .ok (later, after) ∧
      Stage now order.side market (.start order) pass swept := by
  obtain ⟨first, shared, second, swept, apportioned, walked, queued, sharing, sweeping, -⟩ :=
    matchOrder_limit formed limit matched
  have exact := taken.of_exact (by simp [Order.isMarketBuy, limit])
  have steady : ∀ maker ∈ (market.book.ladder order.side.opposite).orders, maker.Steady places := by
    intro maker member
    obtain ⟨meets, quantity⟩ := Pass.meets_of_placed (formed.ladders order.side.opposite)
      (fun maker member => given maker (List.mem_append_left _ member)) order member
    exact (meets.counted.of_exact quantity).steady meets.live
  have earlier := matchApportioned_drawn fewer formed (exact.steady live) rfl steady apportioned
  have shared_fewer : shared.listing.baseScale ≤ places := sharing.listing_eq ▸ fewer
  have later_drawn := matchLadder_drawn shared_fewer sharing.formed_after earlier.taker
    sharing.taker_terms earlier.makers walked
  refine ⟨second, swept, earlier.trans later_drawn, ?_, queued, sharing.trans sweeping⟩
  have shared_given := (exact_of_stage sharing fewer exact given).2
  apply (matchLadder_exhausts shared_fewer earlier.taker.exact
    (Order.side_of_terms sharing.taker_terms) sharing.formed_after shared_given walked).imp_right
  intro unreached
  have none :
      (Ladder.divide order.side order.price (swept.book.ladder order.side.opposite)).1 = [] := by
    refine List.filter_eq_nil_iff.mpr fun level member => ?_
    have beyond := unreached level member
    rw [Pass.reaches_of_terms sharing.taker_terms] at beyond
    exact Bool.eq_false_iff.mp beyond
  rw [crossing, none]
  rfl

end Drawn

/-- Markets that differ in nothing that an order finds but their issuance windows. -/
structure Twin (a b : Market) : Prop where
  listing : a.listing.Twin b.listing
  book : a.book = b.book
  halted : a.halted = b.halted

def windowless (market : Market) : Market :=
  { market with listing := { market.listing with issuance := none } }

theorem twin_windowless (market : Market) : market.Twin market.windowless := ⟨rfl, rfl, rfl⟩

section Twin
variable {places : Nat} {now now' : Instant} {order : Order} {market market' after after' : Market}
  {pass pass' later later' : Pass}

theorem matchQueue_even (even : Pass.Even places pass pass')
    (twin : market.listing.Twin market'.listing) (fewer : market.listing.baseScale ≤ places)
    (same : pass.taker.terms = order.terms) (limit : order.kind = .limit)
    (priced : 0 < order.price)
    (formed : market.book.WellFormed market.symbol)
    (given : ∀ maker ∈ market.book.queue order.side.opposite, maker.Counted places)
    (queues : market.book.queue order.side.opposite = market'.book.queue order.side.opposite)
    (matched : market.matchQueue now pass = .ok (later, after))
    (matched' : market'.matchQueue now' pass' = .ok (later', after')) :
    Pass.Even places later later' ∧
      (after.book.queue order.side.opposite).Alike (after'.book.queue order.side.opposite) := by
  have side := Order.side_of_terms same
  have side' := Order.side_of_terms (even.terms.symm.trans same)
  simp only [matchQueue, side, ← even.isCompleted, side'] at matched matched'
  split_ifs at matched matched' with done
  · cases matched
    cases matched'
    rw [queues]
    exact ⟨even, .refl _⟩
  · obtain ⟨⟨last, queue⟩, walk, equal⟩ := (bind_eq_ok _ _ _).mp matched
    obtain ⟨⟨last', queue'⟩, walk', equal'⟩ := (bind_eq_ok _ _ _).mp matched'
    cases equal
    cases equal'
    rw [← queues] at walk'
    rw [OrderBook.queue_setQueue, OrderBook.queue_setQueue]
    refine even.sweepQueue twin fewer (Bool.eq_false_iff.mpr done) ?_ walk walk'
    intro maker member
    exact Pass.meets_of_waiting (formed.queues _) given ((Order.kind_of_terms same).trans limit)
      (Order.price_of_terms same ▸ priced) member

theorem matchQueue_ladder (side : Side)
    (matched : market.matchQueue now pass = .ok (later, after)) :
    after.book.ladder side = market.book.ladder side := by
  unfold matchQueue at matched
  split_ifs at matched
  · cases matched
    rfl
  · obtain ⟨⟨last, queue⟩, -, equal⟩ := (bind_eq_ok _ _ _).mp matched
    cases equal
    exact OrderBook.ladder_setQueue _ _ _ _

variable (twin : market.Twin market')
include twin

theorem Twin.symbol : market.symbol = market'.symbol := twin.listing.name

theorem Twin.crossing : market.crossing order = market'.crossing order := by
  rw [Market.crossing, Market.crossing, twin.book]

theorem Twin.opposing : market.opposing order = market'.opposing order := by
  rw [Market.opposing, Market.opposing, twin.book]

theorem Twin.refusal? (order : Order) : market.refusal? order = market'.refusal? order := by
  rw [Market.refusal?, Market.refusal?, twin.halted, twin.symbol]

/-- An order takes the same from twins, whatever their windows share out: of limit orders, the
smaller of what is left of it and of those within its limit. -/
theorem Twin.matchOrder (fewer : market.listing.baseScale ≤ places)
    (formed : market.book.WellFormed market.symbol) (accepts : market.Accepts order)
    (limit : order.kind = .limit) (taken : order.Counted places)
    (given : ∀ maker ∈ market.book.ordersOf order.side.opposite, maker.Counted places)
    (matched : market.matchOrder now order = .ok (later, after))
    (matched' : market'.matchOrder now' order = .ok (later', after')) :
    Pass.Even places later later' ∧
      (after.book.queue order.side.opposite).Alike (after'.book.queue order.side.opposite) ∧
      after.opposing order =
        market.opposing order - min order.left ((market.crossing order).map Order.left).sum ∧
      after'.opposing order = after.opposing order := by
  have live := accepts.rests.live
  have fewer' : market'.listing.baseScale ≤ places := twin.listing.baseScale ▸ fewer
  have formed' : market'.book.WellFormed market'.symbol := twin.symbol ▸ twin.book ▸ formed
  have given' : ∀ maker ∈ market'.book.ordersOf order.side.opposite, maker.Counted places :=
    twin.book ▸ given
  obtain ⟨pass, swept, drawn, exhausted, queued, stage⟩ :=
    matchOrder_drawn fewer formed limit live taken given matched
  obtain ⟨pass', swept', drawn', exhausted', queued', stage'⟩ :=
    matchOrder_drawn fewer' formed' limit live taken given' matched'
  have left : pass.taker.left = pass'.taker.left := by
    rw [drawn.left_eq formed stage.formed_after exhausted,
      drawn'.left_eq formed' stage'.formed_after exhausted', twin.crossing]
  have even : Pass.Even places pass pass' :=
    ⟨drawn.taker, drawn'.taker, stage.taker_terms.trans stage'.taker_terms.symm, left⟩
  have listed : swept.listing.Twin swept'.listing := by
    rw [stage.listing_eq, stage'.listing_eq]
    exact twin.listing
  have queues : swept.book.queue order.side.opposite = swept'.book.queue order.side.opposite := by
    rw [drawn.queue, drawn'.queue, twin.book]
  obtain ⟨last, alike⟩ := matchQueue_even even listed (stage.listing_eq ▸ fewer)
    stage.taker_terms limit (accepts.price_pos limit) stage.formed_after (fun maker member =>
      given maker (List.mem_append_right _ (drawn.queue ▸ member))) queues queued queued'
  -- the queue stage leaves the limit orders as they are
  have total := (opposing_of_ladder (matchQueue_ladder _ queued)).trans
    (drawn.total_eq formed stage.formed_after exhausted)
  have total' := (opposing_of_ladder (matchQueue_ladder _ queued')).trans
    (drawn'.total_eq formed' stage'.formed_after exhausted')
  rw [← twin.opposing, ← twin.crossing, ← total] at total'
  exact ⟨last, alike, total, total'⟩

end Twin

end Market

/-- How a limit order ends up that was matched: it is done and reported last, or it rests at its
price. -/
inductive Report.Ends (report : Report) (market : Market) (order : Order) : Prop
  | completed (done : order.isCompleted = true) (last : report.completed.getLast? = some order)
      (none : report.resting = none)
  | resting (live : order.isCompleted = false) (rests : report.resting = some order)
      (placed : ∃ level ∈ market.book.ladder order.side,
        level.price ≈ order.price ∧ order ∈ level.orders)

/-- Two ways to trade an order after which as much of it is filled and it ended up the same,
the opposing market orders are alike, and as much is left of the opposing limit orders: what
was left of them before, less all that the order could take within its limit. -/
structure SameTotal (before : Market) (order : Order) (report report' : Report)
    (market market' : Market) : Prop where
  taker : ∃ last last', report.Ends market last ∧ report'.Ends market' last' ∧
    last.terms = order.terms ∧ last'.terms = order.terms ∧
    last.filledAmount ≈ last'.filledAmount ∧ last.isCompleted = last'.isCompleted
  queue : (market.book.queue order.side.opposite).Alike (market'.book.queue order.side.opposite)
  total : market.opposing order = market'.opposing order
  taken : market.opposing order =
    before.opposing order - min order.left ((before.crossing order).map Order.left).sum

namespace Market

theorem ends_of_finish {market later : Market} {pass : Pass} {report : Report} {order : Order}
    (same : pass.taker.terms = order.terms) (limit : order.kind = .limit)
    (ended : market.finish pass = .ok (report, later)) :
    report.Ends later pass.taker ∧
      later.book.ladder order.side.opposite = market.book.ladder order.side.opposite ∧
      later.book.queue order.side.opposite = market.book.queue order.side.opposite := by
  obtain ⟨-, -, ⟨done, completed, none, book⟩ | ⟨live, completed, rests, book⟩⟩ :=
    finish_cases ended
  · rw [book]
    exact ⟨.completed done (by rw [completed, List.getLast?_concat]) none, rfl, rfl⟩
  · have placed : later.book = market.book.addLimit pass.taker := by
      rw [book, OrderBook.place, Order.kind_of_terms same, limit]
    rw [← Order.side_of_terms same, placed, OrderBook.addLimit]
    refine ⟨.resting live rests ?_, ?_, ?_⟩
    · rw [placed, OrderBook.addLimit, OrderBook.ladder_setLadder]
      exact Ladder.exists_level_append _ _ _
    · rw [OrderBook.ladder_setLadder_opposite]
    · rw [OrderBook.queue_setLadder]

end Market

/-- Sharing out changes the distribution, not the total. On markets with the same book, whose
listings differ in nothing but their issuance windows, a limit order is refused alike, or as
much of it is filled, it ends up the same, and as much is left of what it met. -/
theorem total_independent_of_window {listing : Listing} {actions : List Action} {history : History}
    {market : Market} (run : Market.replay listing actions = .ok (history, market)) {order : Order}
    {places : Nat} (measured : Measured listing places (Action.orders actions ++ [order]))
    (limit : order.kind = .limit) {other : Market} (twin : market.Twin other) {now now' : Instant}
    {outcome outcome' : Outcome} {later later' : Market}
    (traded : market.trade now order = .ok (outcome, later))
    (traded' : other.trade now' order = .ok (outcome', later')) :
    (∃ reason, outcome = .refused reason ∧ outcome' = .refused reason ∧ later = market ∧
        later' = other) ∨
      ∃ report report', outcome = .processed report ∧ outcome' = .processed report' ∧
        SameTotal market order report report' later later' := by
  obtain ⟨rfl, formed⟩ := Market.wellFormed_of_replay run
  have counted := counted_of_replay measured.base_le run fun order member =>
    measured.fits (List.mem_append_left _ member)
  have fits := measured.fits (List.mem_append_right _ (List.mem_singleton_self order))
  -- twins refuse an order for the same reason, or both of them take it
  have refusals := twin.refusal? order
  rcases Market.trade_cases traded with
      ⟨reason, rfl, refused, rfl⟩ | ⟨report, pass, after, rfl, accepts, matched, ended⟩ <;>
    rcases Market.trade_cases traded' with
      ⟨reason', rfl, refused', rfl⟩ | ⟨report', pass', after', rfl, accepts', matched', ended'⟩
  · rw [refused, refused'] at refusals
    cases refusals
    exact Or.inl ⟨reason, rfl, rfl, rfl, rfl⟩
  · rw [refused, Market.refusal?_of_accepts accepts'] at refusals
    cases refusals
  · rw [refused', Market.refusal?_of_accepts accepts] at refusals
    cases refusals
  · obtain ⟨even, queue, taken, total⟩ := twin.matchOrder measured.base_le formed accepts limit
      (fits.counted accepts.rests.live)
      (fun maker member => counted maker (OrderBook.mem_orders.mpr ⟨_, member⟩)) matched matched'
    have terms : pass.taker.terms = order.terms :=
      (Market.matchOrder_stage formed matched).taker_terms
    have terms' := even.terms.symm.trans terms
    obtain ⟨ends, ladder, waiting⟩ := Market.ends_of_finish terms limit ended
    obtain ⟨ends', ladder', waiting'⟩ := Market.ends_of_finish terms' limit ended'
    refine Or.inr ⟨report, report', rfl, rfl,
      ⟨_, _, ends, ends', terms, terms', even.filledAmount, even.isCompleted⟩, ?_, ?_, ?_⟩
    · rwa [waiting, waiting']
    · rw [Market.opposing_of_ladder ladder, Market.opposing_of_ladder ladder', total]
    · rw [Market.opposing_of_ladder ladder, taken]

theorem sample_total_of_shares : ∃ history market report report' later later',
    Market.replay .issuing History.issueAsks = .ok (history, market) ∧
      market.trade default History.issueBid = .ok (.processed report, later) ∧
      market.windowless.trade default History.issueBid = .ok (.processed report', later') ∧
      market.listing.apportions History.issueBid = true ∧
      report.trades.map (fun trade => (trade.sellNumber, trade.amount.coefficient)) =
        [("first", 2), ("second", 3)] ∧
      report'.trades.map (fun trade => (trade.sellNumber, trade.amount.coefficient)) =
        [("first", 4), ("second", 1)] ∧
      SameTotal market History.issueBid report report' later later' := by
  have run : ∃ history market report report' later later',
      Market.replay .issuing History.issueAsks = .ok (history, market) ∧
        market.trade default History.issueBid = .ok (.processed report, later) ∧
        market.windowless.trade default History.issueBid = .ok (.processed report', later') ∧
        market.listing.apportions History.issueBid = true ∧
        report.trades.map (fun trade => (trade.sellNumber, trade.amount.coefficient)) =
          [("first", 2), ("second", 3)] ∧
        report'.trades.map (fun trade => (trade.sellNumber, trade.amount.coefficient)) =
          [("first", 4), ("second", 1)] :=
    ⟨_, _, _, _, _, _, rfl, rfl, rfl, by decide, by decide +kernel, by decide +kernel⟩
  obtain ⟨history, market, report, report', later, later', ran, traded, traded', covered, shares,
    turns⟩ := run
  have measured : Measured .issuing 8 (Action.orders History.issueAsks ++ [History.issueBid]) := by
    have submitted : Action.orders History.issueAsks =
        [History.issueAsk "first" (.ofParts 4 0), History.issueAsk "second" (.ofParts 6 0)] := rfl
    rw [submitted]
    refine ⟨by decide, by decide, by decide +kernel, by decide +kernel, ?_⟩
    norm_num [History.issueAsk, History.issueBid, Order.limit, Decimal.value_ofParts, tenTo,
      Decimal.bound]
  refine ⟨history, market, report, report', later, later', ran, traded, traded', covered, shares,
    turns, ?_⟩
  rcases total_independent_of_window ran measured rfl market.twin_windowless traded traded' with
    ⟨_, refused, -⟩ | ⟨_, _, same, same', total⟩
  · cases refused
  · cases same
    cases same'
    exact total

end SpotExchange
