import SpotExchange.Proofs.RankedDepth
import SpotExchange.Proofs.RoundedValue

/-!
Cancellation. A request tells where an order is to be found. If an order with its number
rests there, just that one leaves the book, and the depth view of its side shows as much
less as the order had left; if there is none, nothing changes. A request that has taken
its order out finds nothing a second time.
-/

namespace SpotExchange

namespace OrderBook

/-- Whether an order rests where a request looks for it: on the level of the price, with
whatever places that is written, or in the queue. -/
def Holds (book : OrderBook) (request : CancelRequest) (order : Order) : Prop :=
  order.number = request.number ∧
    match request.kind with
    | .limit => ∃ level ∈ book.ladder request.side,
        level.price ≈ request.price ∧ order ∈ level.orders
    | .market => order ∈ book.queue request.side

section Holds
variable {book later : OrderBook} {request : CancelRequest} {order : Order} {symbol : String}

theorem Holds.mem_orders (holds : book.Holds request order) : order ∈ book.orders := by
  obtain ⟨-, place⟩ := holds
  apply OrderBook.mem_orders.mpr
  cases kind : request.kind with
  | limit =>
      simp only [kind] at place
      obtain ⟨level, known, -, inside⟩ := place
      exact ⟨request.side,
        List.mem_append_left _ (Ladder.mem_orders.mpr ⟨level, known, inside⟩)⟩
  | market =>
      simp only [kind] at place
      exact ⟨request.side, List.mem_append_right _ place⟩

theorem take?_isSome (formed : book.WellFormed symbol) :
    (book.take? request).isSome = true ↔ ∃ order, book.Holds request order := by
  unfold take? Holds
  cases kind : request.kind with
  | limit =>
      simp only [removeLimit?, Option.isSome_map,
        Ladder.extract?_isSome (formed.ladders request.side).sorted]
      constructor
      · rintro ⟨level, known, here, order, inside, same⟩
        exact ⟨order, same, level, known, here, inside⟩
      · rintro ⟨order, same, level, known, here, inside⟩
        exact ⟨level, known, here, order, inside, same⟩
  | market =>
      simp only [removeMarket?, Option.isSome_map, OrderQueue.extract?_isSome]
      exact exists_congr fun order => and_comm

theorem holds_of_take? (taken : book.take? request = some (order, later)) :
    book.Holds request order := by
  unfold take? at taken
  unfold Holds
  cases kind : request.kind with
  | limit =>
      simp only [kind] at taken ⊢
      obtain ⟨⟨_, ladder⟩, extracted, same⟩ := Option.map_eq_some_iff.mp taken
      cases same
      obtain ⟨number, without⟩ := Ladder.extract?_without extracted
      exact ⟨number, without.exists_level⟩
  | market =>
      simp only [kind] at taken ⊢
      obtain ⟨number, waiting, -⟩ := removeMarket?_removes taken
      exact ⟨number, waiting⟩

theorem Removes.absent (removes : book.Removes order later)
    (distinct : (book.orders.map Order.number).Nodup) :
    ∀ other ∈ later.orders, other.number ≠ order.number := by
  rw [← Multiset.coe_nodup, ← Multiset.map_coe, removes.orders, Multiset.map_cons,
    Multiset.nodup_cons] at distinct
  intro other member same
  exact distinct.1 (same ▸ Multiset.mem_map_of_mem Order.number (Multiset.mem_coe.mpr member))

end Holds

end OrderBook

namespace DepthView

section Lowered
variable {side : Side} {maxDepth : Nat} {price amount : Decimal} {view later : DepthView}
  {changed : Bool}

/-- Whether a view shows just `amount` less at a price than another did: what is left of
the row, where that is a decimal, or no row when nothing is. -/
def ShowsLess (price amount : Decimal) (view later : DepthView) : Prop :=
  ∀ row ∈ view.rows, row.price ≈ price →
    ∀ left : Decimal, left.value = row.amount.value - amount.value →
      if left ≤ 0 then ∀ other ∈ later.rows, ¬ other.price ≈ price
      else ∃ kept ∈ later.rows, kept.price = row.price ∧ kept.amount ≈ left

theorem Lowered.showsLess (ranked : view.Ranked side maxDepth)
    (lowered : Lowered price amount view changed later) : ShowsLess price amount view later := by
  intro row member here left exact
  have prices := ranked.prices_nodup
  have same {found : DepthRow} (known : found ∈ view.rows) (there : found.price ≈ price) :
      found = row := by
    rw [Decimal.equiv_iff_value] at here there
    exact List.inj_on_of_nodup_map prices known member (there.trans here.symm)
  cases lowered with
  | absent apart => exact absurd here (apart row member)
  | @kept before after found rest rows here' subtracted more =>
      obtain rfl := same (by simp [rows]) here'
      have value := Decimal.value_of_sub subtracted exact
      rw [Decimal.pos_iff, value, ← Decimal.not_nonpos_iff] at more
      rw [if_neg more]
      exact ⟨_, List.mem_append_right _ List.mem_cons_self, rfl,
        (Decimal.equiv_iff_value _ _).mpr value⟩
  | @dropped before after found rest rows here' subtracted nothing =>
      obtain rfl := same (by simp [rows]) here'
      have value := Decimal.value_of_sub subtracted exact
      rw [Decimal.nonpos_iff, value, ← Decimal.nonpos_iff] at nothing
      rw [if_pos nothing]
      rw [rows, List.map_append, List.map_cons, List.nodup_middle, List.nodup_cons,
        ← List.map_append] at prices
      intro other kept again
      rw [Decimal.equiv_iff_value] at here again
      exact prices.1 (List.mem_map.mpr ⟨other, kept, again.trans here.symm⟩)

end Lowered

end DepthView

namespace Market

/-- What the cancellation of an order changes. A limit order leaves its level, and the row
at its price shows what it had left less; a market order leaves its queue. -/
structure Cancels (request : CancelRequest) (order : Order) (market later : Market) : Prop where
  frame : later = { market with book := later.book, depths := later.depths }
  changes : match request.kind with
    | .limit => ∃ ladder remaining changed view,
        Ladder.Without request.price order (market.book.ladder request.side) ladder ∧
        later.book = market.book.setLadder request.side ladder ∧
        order.remaining = .ok remaining ∧
        DepthView.Lowered order.price remaining (market.depth request.side) changed view ∧
        DepthView.ShowsLess order.price remaining (market.depth request.side) view ∧
        later.depths = market.depths.set request.side view
    | .market => ∃ near far,
        market.book.queue request.side = near ++ order :: far ∧
        later.book = market.book.setQueue request.side (near ++ far) ∧
        later.depths = market.depths

section Cancel
variable {market later : Market} {request : CancelRequest} {removed : Option Order}
  {order record : Order}

theorem cancels_of_cancel (formed : market.book.WellFormed market.symbol) (ranked : market.Ranked)
    (cancelled : market.cancel request = .ok (some record, later)) :
    request.symbol = market.symbol ∧ ∃ order, market.book.Holds request order ∧
      record = order.cancel ∧ market.book.Removes order later.book ∧
      Cancels request order market later := by
  rcases cancel_finds cancelled with ⟨none, -⟩ | ⟨symbol, order, book, found, some, taken⟩
  · cases none
  obtain rfl := Option.some.inj some
  have holds := OrderBook.holds_of_take? found
  have removes := (OrderBook.take?_removes found).2
  rcases taken with ⟨kind, rfl⟩ | ⟨kind, remaining, changed, view, left, taken, rfl⟩
  · refine ⟨symbol, order, holds, rfl, removes, rfl, ?_⟩
    simp only [OrderBook.take?, kind] at found ⊢
    obtain ⟨⟨_, queue⟩, extracted, same⟩ := Option.map_eq_some_iff.mp found
    cases same
    obtain ⟨-, near, far, split, rfl⟩ := OrderQueue.extract?_eq_some extracted
    exact ⟨near, far, split, rfl, trivial⟩
  · refine ⟨symbol, order, holds, rfl, removes, rfl, ?_⟩
    simp only [OrderBook.take?, kind] at found ⊢
    obtain ⟨⟨_, ladder⟩, extracted, same⟩ := Option.map_eq_some_iff.mp found
    cases same
    have without := (Ladder.extract?_without extracted).2
    obtain ⟨level, known, -, inside⟩ := without.exists_level
    obtain ⟨limit, side, -⟩ := (formed.ladders request.side).placed level known order inside
    -- the view of the side of the order shows limit orders, so this one too
    have covers : (market.depth order.side).covers order = true := by
      simp [DepthView.covers, limit, (ranked order.side).side_eq]
    rw [DepthView.remove, if_pos covers, side] at taken
    have lowered := DepthView.removeAt_lowered taken
    exact ⟨ladder, remaining, changed, view, without, rfl, left, lowered,
      lowered.showsLess (ranked request.side), side ▸ rfl⟩

theorem isSome_of_holds (formed : market.book.WellFormed market.symbol)
    (symbol : request.symbol = market.symbol) (holds : market.book.Holds request order)
    (cancelled : market.cancel request = .ok (removed, later)) : removed.isSome = true := by
  rcases cancel_finds cancelled with ⟨-, -, nothing⟩ | ⟨-, _, _, -, some, -⟩
  · have found := (OrderBook.take?_isSome formed).mpr ⟨order, holds⟩
    rw [nothing symbol] at found
    cases found
  · rw [some]
    rfl

theorem cancel_of_absent (formed : market.book.WellFormed market.symbol)
    (absent : ∀ order, ¬ market.book.Holds request order) :
    market.cancel request = .ok (none, market) := by
  apply cancel_of_none
  rw [← Option.not_isSome_iff_eq_none, OrderBook.take?_isSome formed]
  exact fun ⟨order, holds⟩ => absent order holds

end Cancel

end Market

/-- A request, on whatever market comes of a run with distinct numbers, takes an order out
just when it names the symbol and the order rests where the request looks for it; nothing
else changes then but the row at its price, and the same request finds nothing again.
When it takes nothing out it changes nothing. -/
theorem cancellation_exact {listing : Listing} {actions : List Action} {history : History}
    {market later : Market} {request : CancelRequest} {removed : Option Order}
    (run : Market.replay listing actions = .ok (history, market))
    (distinct : (market.book.orders.map Order.number).Nodup)
    (cancelled : market.cancel request = .ok (removed, later)) :
    (removed.isSome = true ↔
        request.symbol = market.symbol ∧ ∃ order, market.book.Holds request order) ∧
      (removed = none → later = market) ∧
      ∀ record, removed = some record →
        ∃ order, market.book.Holds request order ∧
          (∀ other, market.book.Holds request other → other = order) ∧
          record = { order with status := .cancelled } ∧
          Market.Cancels request order market later ∧
          later.cancel request = .ok (none, later) := by
  have formed := (Market.wellFormed_of_replay run).2
  have ranked := Market.ranked_of_replay run
  refine ⟨⟨?_, ?_⟩, ?_, ?_⟩
  · intro some
    obtain ⟨record, rfl⟩ := Option.isSome_iff_exists.mp some
    obtain ⟨symbol, order, holds, -⟩ := Market.cancels_of_cancel formed ranked cancelled
    exact ⟨symbol, order, holds⟩
  · rintro ⟨symbol, order, holds⟩
    exact Market.isSome_of_holds formed symbol holds cancelled
  · rintro rfl
    rcases Market.cancel_cases cancelled with ⟨-, same⟩ | ⟨_, some, -⟩
    · exact same
    · cases some
  · rintro record rfl
    obtain ⟨-, order, holds, rfl, removes, cancels⟩ :=
      Market.cancels_of_cancel formed ranked cancelled
    have others := removes.absent distinct
    -- what the request fits now is the order that goes or one of those that stay
    have known (other : Order) (elsewhere : market.book.Holds request other) :
        other = order ∨ other ∈ later.book.orders := by
      rw [← Multiset.mem_coe, ← Multiset.mem_cons, ← removes.orders]
      exact Multiset.mem_coe.mpr elsewhere.mem_orders
    refine ⟨order, holds, ?_, ?_, cancels, ?_⟩
    · intro other elsewhere
      rcases known other elsewhere with same | left
      · exact same
      · exact absurd (elsewhere.1.trans holds.1.symm) (others other left)
    · obtain ⟨side, member⟩ := OrderBook.mem_orders.mp holds.mem_orders
      exact Order.cancel_of_open (formed.rests member).2.live
    · refine Market.cancel_of_absent ?_ ?_
      · rw [cancels.frame]
        exact removes.formed formed
      · intro other again
        exact others other again.mem_orders (again.1.trans holds.1.symm)

theorem sample_cancellation_exact : ∃ history market record later,
    Market.replay (.named "coin") (History.sampleActions.take 4) = .ok (history, market) ∧
      market.cancel (History.issueAsk "ask" 0).cancelRequest = .ok (some record, later) ∧
      record.filledAmount = .ofParts 3 0 ∧
      ((later.depth .sell).rows.map fun row => (row.price.coefficient, row.amount.coefficient)) =
        [(100, 5)] ∧
      later.cancel (History.issueAsk "ask" 0).cancelRequest = .ok (none, later) := by
  obtain ⟨history, market, record, later, run, distinct, cancelled, filled, rows⟩ :
      ∃ history market record later,
        Market.replay (.named "coin") (History.sampleActions.take 4) = .ok (history, market) ∧
        (market.book.orders.map Order.number).Nodup ∧
        market.cancel (History.issueAsk "ask" 0).cancelRequest = .ok (some record, later) ∧
        record.filledAmount = .ofParts 3 0 ∧
        ((later.depth .sell).rows.map fun row => (row.price.coefficient, row.amount.coefficient)) =
          [(100, 5)] :=
    ⟨_, _, _, _, rfl, by decide +kernel, rfl, rfl, by decide +kernel⟩
  obtain ⟨-, -, taken⟩ := cancellation_exact run distinct cancelled
  obtain ⟨_, -, -, -, -, again⟩ := taken record rfl
  exact ⟨history, market, record, later, run, cancelled, filled, rows, again⟩

end SpotExchange
