import SpotExchange.Proofs.BookShape
import SpotExchange.Market.PriceTime
import SpotExchange.Market.ProRata

/-!
Matching as a sequence of deals. Walking a queue, walking a ladder and sharing
out pro rata differ in which orders the taker deals with and for how much. All
of them are sequences of single deals between two open orders, after which the
makers that are done have been reported and the others are kept.
-/

namespace SpotExchange

namespace Pass

/-- The terms of one deal. Both orders are open and one of them has a limit; the
amount is positive, at most what either can still trade at the price, and a full
quantity of one of them unless it is cut to the places of the listing. -/
structure Deal (listing : Listing) (taker maker : Order) (price amount money : Decimal) : Prop where
  taker_open : taker.isCompleted = false
  maker_open : maker.isCompleted = false
  limited : taker.kind = .limit ∨ maker.kind = .limit
  price_fair : price ≈ dealPrice taker maker
  price_pos : 0 < price
  amount_pos : 0 < amount
  within_taker : ∃ need, taker.availableAt price listing.baseScale = .ok need ∧ amount ≤ need
  within_maker : ∃ available, maker.availableAt price listing.baseScale = .ok available ∧
    amount ≤ available
  amount_source : amount.scale ≤ listing.baseScale ∨
    taker.availableAt price listing.baseScale = .ok amount ∨
    maker.availableAt price listing.baseScale = .ok amount
  money_cut : ∃ product, amount.mul price = .ok product ∧ money = listing.floorQuote product

/-- Deals of a taker with some makers, one after the other. Makers are counted
without their order: those that are done are still among them. -/
inductive Dealings (listing : Listing) (now : Instant) (pass : Pass) (makers : Multiset Order) :
    Pass → Multiset Order → Prop
  | refl : Dealings listing now pass makers pass makers
  | report {later : Pass} {left : Multiset Order} (done : List Order)
      (steps : Dealings listing now pass makers later left) :
      Dealings listing now pass makers (later.complete done) left
  | deal {later last : Pass} {others : Multiset Order} {maker filled : Order}
      {price amount money : Decimal}
      (steps : Dealings listing now pass makers later (maker ::ₘ others))
      (terms : Deal listing later.taker maker price amount money)
      (settled : later.settle now maker price amount money = .ok (last, filled)) :
      Dealings listing now pass makers last (filled ::ₘ others)

section Dealings
variable {listing : Listing} {now : Instant}

theorem Dealings.trans {first second third : Pass} {a b c : Multiset Order}
    (left : Dealings listing now first a second b) (right : Dealings listing now second b third c) :
    Dealings listing now first a third c := by
  induction right with
  | refl => exact left
  | report done _ ih => exact .report done ih
  | deal _ terms settled ih => exact .deal ih terms settled

theorem Dealings.frame {pass later : Pass} {makers left : Multiset Order}
    (steps : Dealings listing now pass makers later left) (others : Multiset Order) :
    Dealings listing now pass (others + makers) later (others + left) := by
  induction steps with
  | refl => exact .refl
  | report done _ ih => exact .report done ih
  | deal _ terms settled ih =>
      rw [Multiset.add_cons] at ih ⊢
      exact .deal ih terms settled

theorem settle_eq_ok {pass last : Pass} {maker filled : Order} {price amount money : Decimal}
    (settled : pass.settle now maker price amount money = .ok (last, filled)) :
    maker.fill amount money = .ok filled ∧ pass.taker.fill amount money = .ok last.taker ∧
      last.trades = pass.trades.push (Trade.between pass.taker maker price amount money now) ∧
      last.completed = pass.completed ∧
      (if maker.kind = .limit then DepthDeltas.add maker.price amount pass.deltas
        else .ok pass.deltas) = .ok last.deltas := by
  simp only [settle, bind_eq_ok] at settled
  obtain ⟨taker, taken, given, gave, rest⟩ := settled
  -- the trade is made from the filled orders; it reads nothing but their terms
  have takers := Order.terms_fill taken
  have makers := Order.terms_fill gave
  rw [Trade.between_of_terms _ _ _ _ takers makers, Order.kind_of_terms makers,
    Order.price_of_terms makers] at rest
  split_ifs at rest ⊢ with limit
  · obtain ⟨deltas, added, same⟩ := (bind_eq_ok _ _ _).mp rest
    cases same
    exact ⟨gave, taken, rfl, rfl, added⟩
  · cases rest
    exact ⟨gave, taken, rfl, rfl, rfl⟩

theorem mem_trades_of_settle {pass last : Pass} {maker filled : Order}
    {price amount money : Decimal}
    (settled : pass.settle now maker price amount money = .ok (last, filled)) :
    Trade.between pass.taker maker price amount money now ∈ last.trades.toList := by
  obtain ⟨-, -, pushed, -, -⟩ := settle_eq_ok settled
  rw [pushed, Array.toList_push]
  exact List.mem_append_right _ (List.mem_singleton_self _)

theorem dealings_terms {pass later : Pass} {makers left : Multiset Order}
    (steps : Dealings listing now pass makers later left) :
    later.taker.terms = pass.taker.terms ∧
      left.map Order.terms = makers.map Order.terms := by
  induction steps with
  | refl => exact ⟨rfl, rfl⟩
  | report _ _ ih => exact ih
  | deal _ _ settled ih =>
      obtain ⟨gave, taken, -, -, -⟩ := settle_eq_ok settled
      rw [Multiset.map_cons] at ih ⊢
      rw [Order.terms_fill gave, Order.terms_fill taken]
      exact ih

theorem dealings_numbers {pass later : Pass} {makers left : Multiset Order}
    (steps : Dealings listing now pass makers later left) :
    left.map Order.number = makers.map Order.number := by
  have same := congrArg (Multiset.map Order.number) (dealings_terms steps).2
  simp only [Multiset.map_map] at same
  exact same

theorem trades_of_dealings {pass later : Pass} {makers left : Multiset Order}
    (steps : Dealings listing now pass makers later left) :
    pass.trades.toList ⊆ later.trades.toList := by
  induction steps with
  | refl => exact List.Subset.refl _
  | report _ _ ih => exact ih
  | deal _ _ settled ih =>
      obtain ⟨-, -, pushed, -, -⟩ := settle_eq_ok settled
      rw [pushed, Array.toList_push]
      exact List.Subset.trans ih (List.subset_append_left _ _)

/-- What trades have made of a taker and of some makers: each of them is an
execution of the taker and of one maker, which both were open for it, and of no
other order. -/
structure Followed (now : Instant) (pass : Pass) (makers : Multiset Order) (trades : List Trade)
    (later : Pass) (left : Multiset Order) : Prop where
  recorded : later.trades.toList = pass.trades.toList ++ trades
  between : ∀ trade ∈ trades, ∃ maker ∈ makers, trade =
    Trade.between pass.taker maker trade.price trade.amount trade.money now
  taken : pass.taker.afterTrades trades = .ok (some later.taker)
  given : ∀ record ∈ left, ∃ maker ∈ makers, maker.number = record.number ∧
    maker.afterTrades (Trade.naming maker.number trades) = .ok (some record)

theorem Followed.deal {pass middle last : Pass} {makers others : Multiset Order}
    {trades : List Trade} {maker filled : Order} {price amount money : Decimal}
    (followed : Followed now pass makers trades middle (maker ::ₘ others))
    (distinct : ((maker ::ₘ others).map Order.number).Nodup)
    (fresh : pass.taker.number ∉ (maker ::ₘ others).map Order.number)
    (terms : Deal listing middle.taker maker price amount money)
    (settled : middle.settle now maker price amount money = .ok (last, filled)) :
    ∃ trade, Followed now pass makers (trades ++ [trade]) last (filled ::ₘ others) := by
  obtain ⟨gave, took, pushed, -, -⟩ := settle_eq_ok settled
  simp only [Multiset.map_cons, Multiset.nodup_cons, Multiset.mem_cons, not_or] at distinct fresh
  obtain ⟨origin, known, number, before⟩ := followed.given maker (Multiset.mem_cons_self _ _)
  rw [Trade.between_of_terms _ _ _ _ (Order.terms_afterTrades followed.taken)
    (Order.terms_afterTrades before)] at pushed
  refine ⟨Trade.between pass.taker origin price amount money now, ?_, ?_, ?_, ?_⟩
  · rw [pushed, Array.toList_push, followed.recorded, List.append_assoc]
  · intro trade member
    rcases List.mem_append.mp member with old | new
    · exact followed.between trade old
    · obtain rfl := List.mem_singleton.mp new
      exact ⟨origin, known, rfl⟩
  · exact Order.afterTrades_append.mpr ⟨middle.taker, followed.taken,
      Order.afterTrades_one (Order.not_terminal_of_open terms.taker_open) took⟩
  · intro record member
    rcases Multiset.mem_cons.mp member with rfl | other
    · have named : ∀ trade ∈ [Trade.between pass.taker origin price amount money now],
          trade.names origin.number = true := by
        intro trade last
        rw [List.mem_singleton.mp last, Trade.names_between]
        exact Or.inr rfl
      refine ⟨origin, known, number.trans (Order.number_of_terms (Order.terms_fill gave)).symm, ?_⟩
      rw [Trade.naming_append, Trade.naming_self named]
      exact Order.afterTrades_append.mpr ⟨maker, before,
        Order.afterTrades_one (Order.not_terminal_of_open terms.maker_open) gave⟩
    · obtain ⟨own, present, same, after⟩ := followed.given record (Multiset.mem_cons_of_mem other)
      -- the other makers have other numbers than the two that deal
      have absent : ∀ trade ∈ [Trade.between pass.taker origin price amount money now],
          ¬ trade.names own.number = true := by
        intro trade last
        rw [List.mem_singleton.mp last, Trade.names_between, same, number]
        rintro (taker | maker)
        · exact fresh.2 (taker ▸ Multiset.mem_map_of_mem _ other)
        · exact distinct.1 (maker ▸ Multiset.mem_map_of_mem _ other)
      refine ⟨own, present, same, ?_⟩
      rwa [Trade.naming_append, Trade.naming_eq_nil absent, List.append_nil]

/-- Where numbers are distinct, deals are followed by their trades. -/
theorem dealings_followed {pass later : Pass} {makers left : Multiset Order}
    (steps : Dealings listing now pass makers later left)
    (distinct : (makers.map Order.number).Nodup)
    (fresh : pass.taker.number ∉ makers.map Order.number) :
    ∃ trades, Followed now pass makers trades later left := by
  induction steps with
  | refl => exact ⟨[], by simp, by simp, rfl, fun record member => ⟨record, member, rfl, rfl⟩⟩
  | report done _ ih =>
      obtain ⟨trades, followed⟩ := ih
      exact ⟨trades, followed.recorded, followed.between, followed.taken, followed.given⟩
  | deal steps terms settled ih =>
      obtain ⟨trades, followed⟩ := ih
      rw [← dealings_numbers steps] at distinct fresh
      obtain ⟨trade, after⟩ := followed.deal distinct fresh terms settled
      exact ⟨_, after⟩

theorem Deal.of_meeting {taker maker : Order} {need available product : Decimal}
    (live : taker.isCompleted = false) (waiting : maker.isCompleted = false)
    (limited : taker.kind = .limit ∨ maker.kind = .limit) (priced : ¬ dealPrice taker maker ≤ 0)
    (needed : taker.availableAt (dealPrice taker maker) listing.baseScale = .ok need)
    (offered : maker.availableAt (dealPrice taker maker) listing.baseScale = .ok available)
    (some : ¬ need.min available ≤ 0)
    (multiplied : (need.min available).mul (dealPrice taker maker) = .ok product) :
    Deal listing taker maker (dealPrice taker maker) (need.min available)
      (listing.floorQuote product) := by
  rw [Decimal.not_nonpos_iff] at priced some
  exact
    { taker_open := live
      maker_open := waiting
      limited := limited
      price_fair := Decimal.equiv_rfl
      price_pos := by rwa [Decimal.pos_iff]
      amount_pos := by rwa [Decimal.pos_iff]
      within_taker := ⟨need, needed, by simp [Decimal.le_iff_value]⟩
      within_maker := ⟨available, offered, by simp [Decimal.le_iff_value]⟩
      amount_source := by
        rw [needed, offered]
        rcases Decimal.min_eq_or need available with same | same <;> simp [same]
      money_cut := ⟨product, multiplied, rfl⟩ }

/-- One meeting: nothing trades when there is no price or no amount; else the
smaller of the two quantities does, at the deal price. -/
theorem meet_cases {pass met : Pass} {maker after : Order}
    (live : pass.taker.isCompleted = false) (waiting : maker.isCompleted = false)
    (limited : pass.taker.kind = .limit ∨ maker.kind = .limit)
    (meeting : pass.meet listing now maker = .ok (met, after)) :
    (met = pass ∧ after = maker ∧ (dealPrice pass.taker maker ≤ 0 ∨
      ∃ need available,
        pass.taker.availableAt (dealPrice pass.taker maker) listing.baseScale = .ok need ∧
        maker.availableAt (dealPrice pass.taker maker) listing.baseScale = .ok available ∧
        need.min available ≤ 0)) ∨
    ∃ need available money,
      pass.taker.availableAt (dealPrice pass.taker maker) listing.baseScale = .ok need ∧
      maker.availableAt (dealPrice pass.taker maker) listing.baseScale = .ok available ∧
      Deal listing pass.taker maker (dealPrice pass.taker maker) (need.min available) money ∧
      pass.settle now maker (dealPrice pass.taker maker) (need.min available) money =
        .ok (met, after) := by
  simp only [meet] at meeting
  split_ifs at meeting with free
  · cases meeting
    exact Or.inl ⟨rfl, rfl, Or.inl free⟩
  · simp only [bind_eq_ok] at meeting
    obtain ⟨need, needed, available, offered, rest⟩ := meeting
    split_ifs at rest with nothing
    · cases rest
      exact Or.inl ⟨rfl, rfl, Or.inr ⟨need, available, needed, offered, nothing⟩⟩
    · obtain ⟨product, multiplied, settled⟩ := (bind_eq_ok _ _ _).mp rest
      exact Or.inr ⟨need, available, _, needed, offered,
        .of_meeting live waiting limited free needed offered nothing multiplied, settled⟩

theorem Deal.of_share {taker maker : Order} {price share available need product : Decimal}
    (live : taker.isCompleted = false) (waiting : maker.isCompleted = false)
    (limit : maker.kind = .limit) (placed : maker.price ≈ price) (priced : 0 < price)
    (offered : maker.availableAt price listing.baseScale = .ok available)
    (needed : taker.availableAt price listing.baseScale = .ok need)
    (some : ¬ ((listing.floorBase share).min available).min need ≤ 0)
    (multiplied : (((listing.floorBase share).min available).min need).mul price = .ok product) :
    Deal listing taker maker price (((listing.floorBase share).min available).min need)
      (listing.floorQuote product) := by
  rw [Decimal.not_nonpos_iff] at some
  exact
    { taker_open := live
      maker_open := waiting
      limited := Or.inr limit
      price_fair := by
        rw [dealPrice, limit]
        rw [Decimal.equiv_iff_value] at placed ⊢
        exact placed.symm
      price_pos := priced
      amount_pos := by rwa [Decimal.pos_iff]
      within_taker := ⟨need, needed, by simp [Decimal.le_iff_value]⟩
      within_maker := ⟨available, offered, by simp [Decimal.le_iff_value]⟩
      amount_source := by
        rw [offered, needed]
        rcases Decimal.min_eq_or ((listing.floorBase share).min available) need with same | same
        · rcases Decimal.min_eq_or (listing.floorBase share) available with cut | cut
          · rw [same, cut]
            exact Or.inl (Decimal.scale_truncate_le share listing.baseScale)
          · rw [same, cut]
            exact Or.inr (Or.inr rfl)
        · rw [same]
          exact Or.inr (Or.inl rfl)
      money_cut := ⟨product, multiplied, rfl⟩ }

/-- One allotment: the share of a maker, cut to what both can still trade. -/
theorem allot_cases {pass given : Pass} {maker after : Order} {total price : Decimal}
    (live : pass.taker.isCompleted = false) (waiting : maker.isCompleted = false)
    (limit : maker.kind = .limit) (placed : maker.price ≈ price) (priced : 0 < price)
    (allotted : pass.allot listing now total price maker = .ok (given, after)) :
    (given = pass ∧ after = maker) ∨ ∃ amount money,
      Deal listing pass.taker maker price amount money ∧
      pass.settle now maker price amount money = .ok (given, after) := by
  simp only [allot, bind_eq_ok] at allotted
  obtain ⟨share, shared, available, offered, need, needed, rest⟩ := allotted
  split_ifs at rest with nothing
  · cases rest
    exact Or.inl ⟨rfl, rfl⟩
  · obtain ⟨product, multiplied, settled⟩ := (bind_eq_ok _ _ _).mp rest
    exact Or.inr ⟨_, _,
      .of_share live waiting limit placed priced offered needed nothing multiplied, settled⟩

end Dealings

/-- What a walk over makers leaves: deals, then the makers that are done are
reported and the others are kept, all of them open. -/
def Cleared (listing : Listing) (now : Instant) (pass : Pass) (makers : List Order) (later : Pass)
    (kept : List Order) : Prop :=
  ∃ done : List Order, Dealings listing now pass makers later (kept + done : Multiset Order) ∧
    later.completed.toList = pass.completed.toList ++ done ∧
    (∀ order ∈ done, order.isCompleted = true) ∧ ∀ order ∈ kept, order.isCompleted = false

section Cleared
variable {listing : Listing} {now : Instant}

theorem Cleared.idle (pass : Pass) {makers : List Order}
    (live : ∀ order ∈ makers, order.isCompleted = false) :
    Cleared listing now pass makers pass makers :=
  ⟨[], by simpa using Dealings.refl, by simp, by simp, live⟩

theorem Cleared.trans {first second third : Pass} {makers kept left : List Order}
    (earlier : Cleared listing now first makers second kept)
    (later : Cleared listing now second kept third left) :
    Cleared listing now first makers third left := by
  obtain ⟨done, deals, reported, finished, -⟩ := earlier
  obtain ⟨done', deals', reported', finished', live⟩ := later
  refine ⟨done ++ done', ?_, by rw [reported', reported, List.append_assoc], ?_, live⟩
  · have framed := deals'.frame (done : Multiset Order)
    rw [add_comm] at framed
    have all := deals.trans framed
    rwa [← Multiset.coe_add, add_left_comm]
  · intro order member
    rcases List.mem_append.mp member with old | new
    · exact finished order old
    · exact finished' order new

theorem Cleared.seq {first second third : Pass} {near far near' far' : List Order}
    (earlier : Cleared listing now first near second near')
    (later : Cleared listing now second far third far') :
    Cleared listing now first (near ++ far) third (near' ++ far') := by
  obtain ⟨done, deals, reported, finished, live⟩ := earlier
  obtain ⟨done', deals', reported', finished', live'⟩ := later
  refine ⟨done ++ done', ?_, by rw [reported', reported, List.append_assoc], ?_, ?_⟩
  · -- the far makers stand by in the first walk, the near ones in the second
    have start := deals.frame (far : Multiset Order)
    rw [add_comm (far : Multiset Order) (near' + done)] at start
    have all := start.trans (deals'.frame (near' + done : Multiset Order))
    rw [add_add_add_comm] at all
    rwa [← Multiset.coe_add, ← Multiset.coe_add, ← Multiset.coe_add,
      add_comm (near : Multiset Order)]
  · intro order member
    rcases List.mem_append.mp member with old | new
    · exact finished order old
    · exact finished' order new
  · intro order member
    rcases List.mem_append.mp member with old | new
    · exact live order old
    · exact live' order new

theorem meet_cleared {pass met : Pass} {maker after : Order}
    (live : pass.taker.isCompleted = false) (waiting : maker.isCompleted = false)
    (limited : pass.taker.kind = .limit ∨ maker.kind = .limit)
    (meeting : pass.meet listing now maker = .ok (met, after)) :
    after.terms = maker.terms ∧
      (after.isCompleted = true →
        Cleared listing now pass [maker] (met.complete [after]) []) ∧
      (after.isCompleted = false → Cleared listing now pass [maker] met [after]) := by
  have deals : Dealings listing now pass {maker} met {after} ∧ met.completed = pass.completed := by
    rcases meet_cases live waiting limited meeting with
      ⟨rfl, rfl, -⟩ | ⟨_, _, _, -, -, terms, settled⟩
    · exact ⟨.refl, rfl⟩
    · exact ⟨.deal .refl terms settled, (settle_eq_ok settled).2.2.2.1⟩
  refine ⟨by simpa using (dealings_terms deals.1).2, ?_, ?_⟩
  · intro done
    exact ⟨[after], by simpa using deals.1.report [after], by simp [complete, deals.2],
      by simpa using done, by simp⟩
  · intro still
    exact ⟨[], by simpa using deals.1, by simp [deals.2], by simp, by simpa using still⟩

/-- One step of a walk over a queue: the first maker is met, and goes when it is
done; the walk ends when the taker is. -/
theorem sweepQueue_cons {pass swept : Pass} {maker : Order} {rest kept : OrderQueue}
    (walk : pass.sweepQueue listing now (maker :: rest) = .ok (swept, kept)) :
    ∃ met after told front, pass.meet listing now maker = .ok (met, after) ∧
      (after.isCompleted = true ∧ told = met.complete [after] ∧ front = [] ∨
        after.isCompleted = false ∧ told = met ∧ front = [after]) ∧
      (told.taker.isCompleted = true ∧ swept = told ∧ kept = front ++ rest ∨
        told.taker.isCompleted = false ∧ ∃ others,
          told.sweepQueue listing now rest = .ok (swept, others) ∧ kept = front ++ others) := by
  simp only [sweepQueue, bind_eq_ok] at walk
  obtain ⟨⟨met, after⟩, meeting, tail⟩ := walk
  by_cases done : after.isCompleted = true
  · refine ⟨met, after, met.complete [after], [], meeting, Or.inl ⟨done, rfl, rfl⟩, ?_⟩
    rw [if_pos done] at tail
    split_ifs at tail with stop
    · cases tail
      exact Or.inl ⟨stop, rfl, rfl⟩
    · exact Or.inr ⟨Bool.eq_false_iff.mpr stop, kept, tail, rfl⟩
  · refine ⟨met, after, met, [after], meeting,
      Or.inr ⟨Bool.eq_false_iff.mpr done, rfl, rfl⟩, ?_⟩
    rw [if_neg done] at tail
    split_ifs at tail with stop
    · cases tail
      exact Or.inl ⟨stop, rfl, rfl⟩
    · obtain ⟨⟨walked, others⟩, further, same⟩ := (bind_eq_ok _ _ _).mp tail
      cases same
      exact Or.inr ⟨Bool.eq_false_iff.mpr stop, others, further, rfl⟩

theorem cleared_of_fate {pass met told : Pass} {maker after : Order} {front : OrderQueue}
    (live : pass.taker.isCompleted = false) (waiting : maker.isCompleted = false)
    (limited : pass.taker.kind = .limit ∨ maker.kind = .limit)
    (meeting : pass.meet listing now maker = .ok (met, after))
    (fate : after.isCompleted = true ∧ told = met.complete [after] ∧ front = [] ∨
      after.isCompleted = false ∧ told = met ∧ front = [after]) :
    Cleared listing now pass [maker] told front ∧ OrderQueue.Remainder [maker] front := by
  obtain ⟨same, gone, stays⟩ := meet_cleared live waiting limited meeting
  rcases fate with ⟨done, rfl, rfl⟩ | ⟨still, rfl, rfl⟩
  · exact ⟨gone done, .of_sublist (List.nil_sublist _)⟩
  · exact ⟨stays still, by simp [OrderQueue.Remainder, same]⟩

theorem sweepQueue_cleared {pass swept : Pass} {queue kept : OrderQueue}
    (live : pass.taker.isCompleted = false)
    (waiting : ∀ order ∈ queue, order.isCompleted = false)
    (limited : ∀ order ∈ queue, pass.taker.kind = .limit ∨ order.kind = .limit)
    (walk : pass.sweepQueue listing now queue = .ok (swept, kept)) :
    Cleared listing now pass queue swept kept ∧ OrderQueue.Remainder queue kept := by
  induction queue generalizing pass swept kept with
  | nil =>
      cases walk
      exact ⟨.idle pass waiting, .refl _⟩
  | cons maker rest ih =>
      obtain ⟨first, others⟩ := List.forall_mem_cons.mp waiting
      obtain ⟨first_limited, others_limited⟩ := List.forall_mem_cons.mp limited
      obtain ⟨met, after, told, front, meeting, fate, tail⟩ := sweepQueue_cons walk
      have near := cleared_of_fate live first first_limited meeting fate
      rcases tail with ⟨-, rfl, rfl⟩ | ⟨more, left, further, rfl⟩
      · exact ⟨near.1.seq (.idle _ others), near.2.append (.refl rest)⟩
      · obtain ⟨_, steps, -, -, -⟩ := near.1
        rw [← Order.kind_of_terms (dealings_terms steps).1] at others_limited
        obtain ⟨cleared, fewer⟩ := ih more others others_limited further
        exact ⟨near.1.seq cleared, near.2.append fewer⟩

theorem allotQueue_dealings {pass given : Pass} {queue others : OrderQueue} {total price : Decimal}
    (waiting : ∀ order ∈ queue, order.isCompleted = false)
    (placed : ∀ order ∈ queue, order.kind = .limit ∧ order.price ≈ price) (priced : 0 < price)
    (walk : pass.allotQueue listing now total price queue = .ok (given, others)) :
    Dealings listing now pass queue given others ∧ given.completed = pass.completed ∧
      others.map Order.terms = queue.map Order.terms := by
  induction queue generalizing pass given others with
  | nil =>
      cases walk
      exact ⟨.refl, rfl, rfl⟩
  | cons maker rest ih =>
      rw [allotQueue] at walk
      split_ifs at walk with stop
      · cases walk
        exact ⟨.refl, rfl, rfl⟩
      simp only [bind_eq_ok, return_eq_ok] at walk
      obtain ⟨⟨met, after⟩, allotted, ⟨last, left⟩, further, equal⟩ := walk
      cases equal
      obtain ⟨first, tail⟩ := List.forall_mem_cons.mp waiting
      obtain ⟨limit, near⟩ := placed maker List.mem_cons_self
      have deals : Dealings listing now pass {maker} met {after} ∧
          met.completed = pass.completed := by
        rcases allot_cases (Bool.eq_false_iff.mpr stop) first limit near priced allotted with
          ⟨rfl, rfl⟩ | ⟨_, _, terms, settled⟩
        · exact ⟨.refl, rfl⟩
        · exact ⟨.deal .refl terms settled, (settle_eq_ok settled).2.2.2.1⟩
      obtain ⟨later, reported, same⟩ :=
        ih tail (fun order member => placed order (List.mem_cons_of_mem _ member)) further
      -- the others stand by for this maker, and then this maker for the others
      have start := deals.1.frame (rest : Multiset Order)
      have finish := later.frame {after}
      rw [add_comm, add_comm (rest : Multiset Order)] at start
      refine ⟨start.trans finish, reported.trans deals.2, ?_⟩
      have kept : after.terms = maker.terms := by simpa using (dealings_terms deals.1).2
      simp [kept, same]

theorem allotQueue_cleared {pass given : Pass} {queue others : OrderQueue} {total price : Decimal}
    (waiting : ∀ order ∈ queue, order.isCompleted = false)
    (placed : ∀ order ∈ queue, order.kind = .limit ∧ order.price ≈ price) (priced : 0 < price)
    (walk : pass.allotQueue listing now total price queue = .ok (given, others)) :
    Cleared listing now pass queue (given.complete (OrderQueue.separate others).1)
        (OrderQueue.separate others).2 ∧
      OrderQueue.Remainder queue (OrderQueue.separate others).2 := by
  obtain ⟨deals, reported, same⟩ := allotQueue_dealings waiting placed priced walk
  refine ⟨⟨(OrderQueue.separate others).1, ?_, ?_, ?_, ?_⟩, ?_⟩
  · have parts : ((OrderQueue.separate others).2 + (OrderQueue.separate others).1 :
        Multiset Order) = others := by
      rw [add_comm]
      exact Multiset.coe_eq_coe.mpr (List.filter_append_perm _ others)
    rw [parts]
    exact deals.report _
  · simp [complete, reported]
  · intro order member
    exact (List.mem_filter.mp member).2
  · intro order member
    simpa using (List.mem_filter.mp member).2
  · unfold OrderQueue.Remainder
    rw [← same]
    exact List.filter_sublist.map _

end Cleared

/-- What a walk over a ladder leaves of it. -/
structure Swept (listing : Listing) (now : Instant) (pass : Pass) (ladder : Ladder) (later : Pass)
    (left : Ladder) : Prop where
  cleared : Cleared listing now pass ladder.orders later left.orders
  remainder : Ladder.Remainder ladder left
  occupied : ∀ level ∈ left, level.orders ≠ []

section Swept
variable {listing : Listing} {now : Instant}

theorem Swept.idle (pass : Pass) {symbol : String} {side : Side} {ladder : Ladder}
    (formed : ladder.WellFormed symbol side) : Swept listing now pass ladder pass ladder where
  cleared := .idle pass fun order member => by
    obtain ⟨level, known, inside⟩ := Ladder.mem_orders.mp member
    exact (formed.rests level known order inside).live
  remainder := .refl ladder
  occupied := formed.occupied

theorem Swept.wellFormed {pass later : Pass} {symbol : String} {side : Side} {ladder left : Ladder}
    (swept : Swept listing now pass ladder later left) (formed : ladder.WellFormed symbol side) :
    left.WellFormed symbol side := by
  obtain ⟨_, _, _, _, live⟩ := swept.cleared
  exact formed.remainder swept.remainder swept.occupied live

theorem Swept.trans {first second third : Pass} {ladder middle left : Ladder}
    (earlier : Swept listing now first ladder second middle)
    (later : Swept listing now second middle third left) :
    Swept listing now first ladder third left where
  cleared := earlier.cleared.trans later.cleared
  remainder := earlier.remainder.trans later.remainder
  occupied := later.occupied

theorem Swept.level {first second third : Pass} {level : PriceLevel} {kept : OrderQueue}
    {rest left : Ladder} (near : Cleared listing now first level.orders second kept)
    (fewer : OrderQueue.Remainder level.orders kept)
    (far : Swept listing now second rest third left) :
    Swept listing now first (level :: rest) third (Ladder.keep level kept left) where
  cleared := by
    rw [Ladder.orders_cons, Ladder.orders_keep]
    exact near.seq far.cleared
  remainder := far.remainder.keep fewer
  occupied := Ladder.occupied_keep far.occupied

theorem Swept.append {pass later : Pass} {symbol : String} {side : Side} {near left far : Ladder}
    (swept : Swept listing now pass near later left) (formed : far.WellFormed symbol side) :
    Swept listing now pass (near ++ far) later (left ++ far) where
  cleared := by
    rw [Ladder.orders_append, Ladder.orders_append]
    exact swept.cleared.seq (Swept.idle later formed).cleared
  remainder := swept.remainder.append (.refl far)
  occupied := by
    intro level member
    rcases List.mem_append.mp member with first | last
    · exact swept.occupied level first
    · exact formed.occupied level last

/-- One step of a walk over a ladder: a level within the limit is swept, and the
walk ends with it when it keeps orders or the taker is done. -/
theorem sweepLadder_cons {pass swept : Pass} {limit : Option Decimal} {level : PriceLevel}
    {rest left : Ladder}
    (walk : pass.sweepLadder listing now limit (level :: rest) = .ok (swept, left)) :
    reaches pass.taker limit level = false ∧ swept = pass ∧ left = level :: rest ∨
      reaches pass.taker limit level = true ∧ ∃ met orders,
        pass.sweepQueue listing now level.orders = .ok (met, orders) ∧
        ((orders ≠ [] ∨ met.taker.isCompleted = true) ∧ swept = met ∧
            left = Ladder.keep level orders rest ∨
          orders = [] ∧ met.taker.isCompleted = false ∧
            met.sweepLadder listing now limit rest = .ok (swept, left)) := by
  rw [sweepLadder] at walk
  split_ifs at walk with within
  · simp only [bind_eq_ok] at walk
    obtain ⟨⟨met, orders⟩, queue, tail⟩ := walk
    refine Or.inr ⟨within, met, orders, queue, ?_⟩
    split_ifs at tail with some stop
    · cases tail
      refine Or.inl ⟨Or.inl (by simpa using some), rfl, ?_⟩
      rw [Ladder.keep, if_neg (by simpa using some)]
    · cases tail
      refine Or.inl ⟨Or.inr stop, rfl, ?_⟩
      rw [Ladder.keep, if_pos (by simpa using some)]
    · exact Or.inr ⟨by simpa using some, Bool.eq_false_iff.mpr stop, tail⟩
  · cases walk
    exact Or.inl ⟨Bool.eq_false_iff.mpr within, rfl, rfl⟩

theorem sweepLadder_swept {pass swept : Pass} {limit : Option Decimal} {symbol : String}
    {side : Side} {ladder left : Ladder} (live : pass.taker.isCompleted = false)
    (formed : ladder.WellFormed symbol side)
    (walk : pass.sweepLadder listing now limit ladder = .ok (swept, left)) :
    Swept listing now pass ladder swept left := by
  induction ladder generalizing pass swept left with
  | nil =>
      cases walk
      exact .idle pass formed
  | cons level rest ih =>
      rcases sweepLadder_cons walk with ⟨-, rfl, rfl⟩ | ⟨-, met, orders, queue, tail⟩
      · exact .idle swept formed
      · obtain ⟨waiting, placed⟩ := formed.first
        have limited : ∀ order ∈ level.orders,
            pass.taker.kind = .limit ∨ order.kind = .limit := fun order member =>
          Or.inr (placed order member).1
        obtain ⟨cleared, fewer⟩ := sweepQueue_cleared live waiting limited queue
        rcases tail with ⟨-, rfl, rfl⟩ | ⟨rfl, more, further⟩
        · exact .level cleared fewer (.idle swept formed.tail)
        · exact .level cleared fewer (ih more formed.tail further)

theorem allotLadder_swept {pass given : Pass} {total : Decimal} {symbol : String} {side : Side}
    {ladder left : Ladder} (formed : ladder.WellFormed symbol side)
    (walk : pass.allotLadder listing now total ladder = .ok (given, left)) :
    Swept listing now pass ladder given left := by
  induction ladder generalizing pass given left with
  | nil =>
      cases walk
      exact .idle pass formed
  | cons level rest ih =>
      simp only [allotLadder, bind_eq_ok] at walk
      obtain ⟨⟨met, orders⟩, queue, tail⟩ := walk
      obtain ⟨waiting, placed⟩ := formed.first
      obtain ⟨cleared, fewer⟩ := allotQueue_cleared waiting placed
        (formed.price_pos level List.mem_cons_self) queue
      have behind := formed.tail
      split_ifs at tail with stop
      · cases tail
        exact .level cleared fewer (.idle _ behind)
      · obtain ⟨⟨last, others⟩, further, equal⟩ := (bind_eq_ok _ _ _).mp tail
        cases equal
        exact .level cleared fewer (ih behind further)

theorem apportion_swept {pass given : Pass} {symbol : String} {ladder left : Ladder}
    (formed : ladder.WellFormed symbol pass.taker.side.opposite)
    (shared : pass.apportion listing now ladder = .ok (given, left)) :
    Swept listing now pass ladder given left := by
  simp only [apportion, bind_eq_ok] at shared
  obtain ⟨totals, -, total, -, rest⟩ := shared
  split_ifs at rest with nothing
  · cases rest
    exact .idle pass formed
  · obtain ⟨⟨last, others⟩, walk, equal⟩ := (bind_eq_ok _ _ _).mp rest
    cases equal
    obtain ⟨near, far⟩ := formed.divide pass.taker.side pass.taker.price
    have whole := (allotLadder_swept near walk).append far
    rwa [Ladder.divide_append pass.taker.price formed.sorted] at whole

end Swept

end Pass

end SpotExchange
