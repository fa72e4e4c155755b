import SpotExchange.Proofs.History

/-!
The accounts of a run: every accepted order is in one place, and what is known
of it there is what the trades that name it have made of it.
-/

namespace SpotExchange

namespace Order

theorem status_afterTrades {order last : Order} {trades : List Trade}
    (closed : order.isCompleted = true → order.status = .filled)
    (followed : order.afterTrades trades = .ok (some last)) (done : last.isCompleted = true) :
    last.status = .filled := by
  induction trades generalizing order with
  | nil =>
      simp only [afterTrades, Except.ok.injEq, Option.some.injEq] at followed
      subst followed
      exact closed done
  | cons trade rest ih =>
      obtain ⟨live, next, filled, after⟩ := of_afterTrades_cons followed
      exact ih (status_of_fill live filled) after

end Order

namespace History

/-- A record is what the trades so far have made of an accepted order. -/
def Follows (history : History) (record : Order) : Prop :=
  ∃ order ∈ accepted history, order.number = record.number ∧
    order.afterTrades (Trade.naming order.number (trades history)) = .ok (some record)

theorem Follows.extend {history more : History} {record : Order} (follows : Follows history record)
    (others : ∀ trade ∈ trades more, ¬ trade.names record.number = true) :
    Follows (history ++ more) record := by
  obtain ⟨order, known, number, followed⟩ := follows
  refine ⟨order, by simp [known], number, ?_⟩
  rw [number] at followed ⊢
  rwa [trades_append, Trade.naming_append, Trade.naming_eq_nil others, List.append_nil]

/-- Every accepted order is in one place; what is known of it there is what its
trades have made of it. -/
structure Accounted (history : History) (market : Market) : Prop where
  numbers : (market.book.orders + completed history + cancelled history : Multiset Order).map
    Order.number = (accepted history : Multiset Order).map Order.number
  opened : ∀ order ∈ accepted history, order.isCompleted = false
  resting : ∀ record ∈ market.book.orders, Follows history record
  finished : ∀ record ∈ completed history, record.isCompleted = true ∧ Follows history record
  withdrawn : ∀ record ∈ cancelled history,
    ∃ last, record = last.cancel ∧ last.isCompleted = false ∧ Follows history last
  named : ∀ trade ∈ trades history, ∀ number, trade.names number = true →
    number ∈ (accepted history).map Order.number

section Accounted
variable {history : History} {market later : Market}

theorem Accounted.start (listing : Listing) : Accounted [] (.ofListing listing) where
  numbers := rfl
  opened := by simp [accepted]
  resting := by simp [Market.ofListing, OrderBook.orders, OrderBook.ordersOf, OrderBook.ladder,
    OrderBook.queue, OrderBook.empty, BySide.get, Ladder.orders]
  finished := by simp [completed, reports]
  withdrawn := by simp [cancelled]
  named := by simp [trades, reports]

theorem Accounted.quiet (accounted : Accounted history market) {entry : Action × Answer}
    (quiet : Quiet entry) (book : later.book = market.book) :
    Accounted (history ++ [entry]) later := by
  have follows {record : Order} (known : Follows history record) :
      Follows (history ++ [entry]) record := known.extend (by simp [quiet.trades])
  refine ⟨?_, ?_, ?_, ?_, ?_, ?_⟩
  · simpa [quiet.accepted, quiet.completed, quiet.cancelled, book] using accounted.numbers
  · simpa [quiet.accepted] using accounted.opened
  · intro record member
    rw [book] at member
    exact follows (accounted.resting record member)
  · intro record member
    rw [completed_append, quiet.completed, List.append_nil] at member
    obtain ⟨done, known⟩ := accounted.finished record member
    exact ⟨done, follows known⟩
  · intro record member
    rw [cancelled_append, quiet.cancelled, List.append_nil] at member
    obtain ⟨last, same, live, known⟩ := accounted.withdrawn record member
    exact ⟨last, same, live, follows known⟩
  · simpa [quiet.trades, quiet.accepted] using accounted.named

theorem Accounted.removed (accounted : Accounted history market) {request : CancelRequest}
    {order : Order} (formed : market.book.WellFormed market.symbol)
    (removes : market.book.Removes order later.book) :
    Accounted (history ++ [(.cancel request, .removed (some order.cancel))]) later := by
  have follows {record : Order} (known : Follows history record) :
      Follows (history ++ [(.cancel request, .removed (some order.cancel))]) record :=
    known.extend (by simp)
  have rested (record : Order) : record ∈ market.book.orders ↔
      record = order ∨ record ∈ later.book.orders := by
    rw [← Multiset.mem_coe, removes.orders, Multiset.mem_cons, Multiset.mem_coe]
  refine ⟨?_, ?_, ?_, ?_, ?_, ?_⟩
  · have number : order.cancel.number = order.number :=
      Order.number_of_terms (Order.terms_cancel order)
    rw [accepted_append, accepted_removed, List.append_nil, completed_append, completed_removed,
      List.append_nil, cancelled_append, cancelled_removed, ← accounted.numbers, removes.orders,
      ← Multiset.coe_add, Multiset.coe_singleton, ← Multiset.singleton_add]
    simp only [Multiset.map_add, Multiset.map_singleton, number]
    abel
  · simpa using accounted.opened
  · intro record member
    exact follows (accounted.resting record ((rested record).mpr (Or.inr member)))
  · intro record member
    obtain ⟨done, known⟩ := accounted.finished record (by simpa using member)
    exact ⟨done, follows known⟩
  · intro record member
    rw [cancelled_append] at member
    rcases List.mem_append.mp member with old | new
    · obtain ⟨last, same, live, known⟩ := accounted.withdrawn record old
      exact ⟨last, same, live, follows known⟩
    · have standing := (rested order).mpr (Or.inl rfl)
      obtain ⟨side, inside⟩ := OrderBook.mem_orders.mp standing
      exact ⟨order, List.mem_singleton.mp new, (formed.rests inside).2.live,
        follows (accounted.resting order standing)⟩
  · simpa using accounted.named

theorem Accounted.status_completed (accounted : Accounted history market) {record : Order}
    (member : record ∈ completed history) : record.status = .filled := by
  obtain ⟨done, order, known, -, followed⟩ := accounted.finished record member
  have live := accounted.opened order known
  exact Order.status_afterTrades (by simp [live]) followed done

theorem Accounted.apart (accounted : Accounted history market)
    (distinct : ((accepted history).map Order.number).Nodup) :
    ((market.book.orders + completed history + cancelled history : Multiset Order).map
      Order.number).Nodup := by
  rw [accounted.numbers]
  exact distinct

theorem Accounted.number_ne (accounted : Accounted history market) {record order : Order}
    (fresh : order.number ∉ (accepted history).map Order.number)
    (member : record ∈ (market.book.orders + completed history + cancelled history :
      Multiset Order)) : record.number ≠ order.number := by
  intro same
  have known := Multiset.mem_map_of_mem Order.number member
  rw [accounted.numbers, same] at known
  exact fresh known

theorem Accounted.resting_nodup (accounted : Accounted history market)
    (distinct : ((accepted history).map Order.number).Nodup) :
    (market.book.orders.map Order.number).Nodup := by
  have all := accounted.apart distinct
  rw [add_assoc, Multiset.map_add, Multiset.nodup_add] at all
  exact all.1

theorem Accounted.not_resting (accounted : Accounted history market) {order : Order}
    (fresh : order.number ∉ (accepted history).map Order.number) :
    order.number ∉ market.book.orders.map Order.number := by
  intro known
  obtain ⟨record, resting, number⟩ := List.mem_map.mp known
  exact accounted.number_ne fresh (by simp [resting]) number

section Pass
variable {now : Instant} {order : Order} {report : Report} {pass : Pass} {left : Multiset Order}
  (accounted : Accounted history market)
  (processes : Market.Processes now order market report later pass left)
  (fresh : order.number ∉ (accepted history).map Order.number)
  (distinct : ((accepted history).map Order.number).Nodup)
include accounted processes fresh distinct

theorem Accounted.dealt : Pass.Followed now (.start order)
    (market.book.ordersOf order.side.opposite) report.trades pass left := by
  have apart := accounted.apart distinct
  rw [OrderBook.coe_orders _ order.side] at apart
  simp only [Multiset.map_add, Multiset.nodup_add] at apart
  have absent : order.number ∉ (market.book.ordersOf order.side.opposite : Multiset Order).map
      Order.number := by
    intro member
    obtain ⟨maker, inside, same⟩ := Multiset.mem_map.mp member
    have resting : maker ∈ market.book.orders := OrderBook.mem_orders.mpr ⟨_, inside⟩
    exact accounted.number_ne fresh (by simp [resting]) same
  obtain ⟨trades, followed⟩ := Pass.dealings_followed processes.dealings apart.1.1.2.1 absent
  obtain rfl : report.trades = trades := processes.trades.trans followed.recorded
  exact followed

theorem Accounted.unnamed {number : String} (other : number ≠ order.number)
    (absent : ∀ maker ∈ market.book.ordersOf order.side.opposite, maker.number ≠ number) :
    ∀ trade ∈ report.trades, ¬ trade.names number = true := by
  intro trade member named
  obtain ⟨maker, inside, terms⟩ :=
    (accounted.dealt processes fresh distinct).between trade member
  rw [terms, Trade.names_between] at named
  rcases named with taker | same
  · exact other taker.symm
  · exact absent maker inside same

theorem Accounted.unnamed_closed {record : Order}
    (member : record ∈ completed history ++ cancelled history) :
    ∀ trade ∈ report.trades, ¬ trade.names record.number = true := by
  -- a number is in one place only, so no order that rests has that of a closed one
  have closed : record ∈ (completed history + cancelled history : Multiset Order) := by
    simpa using member
  refine accounted.unnamed processes fresh distinct (accounted.number_ne fresh ?_) ?_
  · rw [add_assoc]
    exact Multiset.mem_add.mpr (Or.inr closed)
  · intro maker inside same
    have apart := accounted.apart distinct
    rw [add_assoc, Multiset.map_add, Multiset.nodup_add] at apart
    have resting : maker ∈ market.book.orders := OrderBook.mem_orders.mpr ⟨_, inside⟩
    refine Multiset.disjoint_left.mp apart.2.2
      (Multiset.mem_map_of_mem _ (Multiset.mem_coe.mpr resting)) ?_
    rw [same]
    exact Multiset.mem_map_of_mem _ closed

theorem Accounted.unnamed_own {record : Order}
    (member : record ∈ market.book.ordersOf order.side) :
    ∀ trade ∈ report.trades, ¬ trade.names record.number = true := by
  have resting : record ∈ market.book.orders := OrderBook.mem_orders.mpr ⟨_, member⟩
  refine accounted.unnamed processes fresh distinct
    (accounted.number_ne fresh (by simp [resting])) ?_
  intro maker inside same
  have apart := accounted.apart distinct
  rw [OrderBook.coe_orders _ order.side] at apart
  simp only [Multiset.map_add, Multiset.nodup_add] at apart
  refine Multiset.disjoint_left.mp apart.1.1.2.2 (Multiset.mem_map_of_mem _ member) ?_
  rw [← same]
  exact Multiset.mem_map_of_mem _ inside

theorem Accounted.follows_taker :
    Follows (history ++ [(.trade now order, .outcome (.processed report))]) pass.taker := by
  obtain ⟨-, between, taken, -⟩ := accounted.dealt processes fresh distinct
  refine ⟨order, by simp, (Order.number_of_terms (Order.terms_afterTrades taken)).symm, ?_⟩
  -- the order is new, so all trades that name it are those of its own pass
  have before : Trade.naming order.number (trades history) = [] := by
    apply Trade.naming_eq_nil
    intro trade member named
    exact fresh (accounted.named trade member _ named)
  have own : Trade.naming order.number report.trades = report.trades := by
    apply Trade.naming_self
    intro trade member
    obtain ⟨maker, -, terms⟩ := between trade member
    rw [terms, Trade.names_between]
    exact Or.inl rfl
  rwa [trades_append, trades_processed, Trade.naming_append, before, own, List.nil_append]

theorem Accounted.follows_left {record : Order} (member : record ∈ left) :
    Follows (history ++ [(.trade now order, .outcome (.processed report))]) record := by
  obtain ⟨maker, inside, number, after⟩ :=
    (accounted.dealt processes fresh distinct).given record member
  obtain ⟨origin, known, same, before⟩ :=
    accounted.resting maker (OrderBook.mem_orders.mpr ⟨_, inside⟩)
  refine ⟨origin, by simp [known], same.trans number, ?_⟩
  rw [trades_append, trades_processed, Trade.naming_append]
  rw [← same] at after
  exact Order.afterTrades_append.mpr ⟨maker, before, after⟩

theorem Accounted.follows_processed {record : Order}
    (member : record ∈ later.book.orders ∨ record ∈ report.completed) :
    Follows (history ++ [(.trade now order, .outcome (.processed report))]) record := by
  have somewhere : record ∈ (later.book.orders + report.completed : Multiset Order) := by
    simpa using member
  rw [processes.orders, Multiset.mem_cons, Multiset.mem_add] at somewhere
  rcases somewhere with rfl | own | other
  · exact accounted.follows_taker processes fresh distinct
  · have resting : record ∈ market.book.orders := OrderBook.mem_orders.mpr ⟨_, own⟩
    apply (accounted.resting record resting).extend
    rw [trades_processed]
    exact accounted.unnamed_own processes fresh distinct own
  · exact accounted.follows_left processes fresh distinct other

omit fresh distinct in
theorem Accounted.numbers_processed :
    (later.book.orders + (completed history + report.completed) + cancelled history :
      Multiset Order).map Order.number =
        (accepted history : Multiset Order).map Order.number + {order.number} := by
  have number : pass.taker.number = order.number :=
    Order.number_of_terms (Pass.dealings_terms processes.dealings).1
  have moved := congrArg (Multiset.map Order.number) processes.orders
  have before := accounted.numbers
  rw [OrderBook.coe_orders _ order.side] at before
  simp only [Multiset.map_add, number, Pass.dealings_numbers processes.dealings,
    Multiset.map_singleton, ← Multiset.singleton_add] at moved before ⊢
  rw [add_left_comm (Multiset.map Order.number (later.book.orders : Multiset Order)), moved,
    ← before]
  abel

theorem Accounted.named_processed {trade : Trade} (member : trade ∈ report.trades)
    {number : String} (named : trade.names number = true) :
    number = order.number ∨ number ∈ (accepted history).map Order.number := by
  obtain ⟨maker, inside, terms⟩ :=
    (accounted.dealt processes fresh distinct).between trade member
  rw [terms, Trade.names_between] at named
  rcases named with rfl | rfl
  · exact Or.inl rfl
  · have resting : maker ∈ market.book.orders := OrderBook.mem_orders.mpr ⟨_, inside⟩
    obtain ⟨origin, known, same, -⟩ := accounted.resting maker resting
    exact Or.inr (same ▸ List.mem_map_of_mem known)

/-- An order that is matched joins the accounts; the trades of its pass follow
those before them, for it and for the orders it dealt with. -/
theorem Accounted.processed :
    Accounted (history ++ [(.trade now order, .outcome (.processed report))]) later := by
  have follows {record : Order} (known : Follows history record)
      (others : ∀ trade ∈ report.trades, ¬ trade.names record.number = true) :
      Follows (history ++ [(.trade now order, .outcome (.processed report))]) record :=
    known.extend (by simpa using others)
  refine ⟨?_, ?_, ?_, ?_, ?_, ?_⟩
  · rw [accepted_append, accepted_processed, completed_append, completed_processed,
      cancelled_append, cancelled_processed, List.append_nil, ← Multiset.coe_add,
      accounted.numbers_processed processes, ← Multiset.coe_add, Multiset.map_add]
    rfl
  · intro record member
    rw [accepted_append, accepted_processed] at member
    rcases List.mem_append.mp member with old | new
    · exact accounted.opened record old
    · rw [List.mem_singleton.mp new]
      exact processes.accepts.rests.live
  · intro record member
    exact accounted.follows_processed processes fresh distinct (Or.inl member)
  · intro record member
    rw [completed_append, completed_processed] at member
    rcases List.mem_append.mp member with old | new
    · obtain ⟨done, known⟩ := accounted.finished record old
      exact ⟨done, follows known (accounted.unnamed_closed processes fresh distinct
        (List.mem_append_left _ old))⟩
    · exact ⟨processes.finished record new,
        accounted.follows_processed processes fresh distinct (Or.inr new)⟩
  · intro record member
    rw [cancelled_append, cancelled_processed, List.append_nil] at member
    obtain ⟨last, same, live, known⟩ := accounted.withdrawn record member
    have others := accounted.unnamed_closed processes fresh distinct
      (List.mem_append_right _ member)
    rw [same, Order.number_of_terms (Order.terms_cancel last)] at others
    exact ⟨last, same, live, follows known others⟩
  · intro trade member number named
    rw [trades_append, trades_processed] at member
    rw [accepted_append, accepted_processed, List.map_append]
    rcases List.mem_append.mp member with old | new
    · exact List.mem_append_left _ (accounted.named trade old number named)
    · rcases accounted.named_processed processes fresh distinct new named with rfl | known
      · exact List.mem_append_right _ (List.mem_singleton_self _)
      · exact List.mem_append_left _ known

theorem Accounted.completed_of_gone {maker : Order}
    (member : maker ∈ market.book.ordersOf order.side.opposite)
    (gone : maker.number ∉ later.book.orders.map Order.number) :
    ∃ record ∈ report.completed, record.number = maker.number ∧ record.status = .filled := by
  have known : maker.number ∈ left.map Order.number := by
    rw [Pass.dealings_numbers processes.dealings]
    exact Multiset.mem_map_of_mem _ member
  obtain ⟨record, inside, number⟩ := Multiset.mem_map.mp known
  have somewhere : record ∈ (later.book.orders + report.completed : Multiset Order) := by
    rw [processes.orders]
    exact Multiset.mem_cons_of_mem (Multiset.mem_add.mpr (Or.inr inside))
  rcases Multiset.mem_add.mp somewhere with resting | done
  · exact absurd (number ▸ List.mem_map_of_mem resting) gone
  · refine ⟨record, done, number, ?_⟩
    apply (accounted.processed processes fresh distinct).status_completed
    rw [completed_append, completed_processed]
    exact List.mem_append_right _ done

end Pass

end Accounted

theorem accepted_sublist (history : History) : (accepted history).Sublist (submitted history) := by
  induction history with
  | nil => exact .slnil
  | cons entry rest ih =>
      obtain ⟨action, answer⟩ := entry
      cases action with
      | trade now order =>
          rcases answer with (reason | report) | removed | -
          · exact ih.cons order
          · exact ih.cons_cons order
          · exact ih.cons order
          · exact ih.cons order
      | cancel request => exact ih
      | halt => exact ih
      | resume => exact ih
      | setReady ready => exact ih

/-- Everything that is known of an order anywhere: in the book, and in what was
reported as done or cancelled. -/
def records (history : History) (market : Market) : List Order :=
  market.book.orders ++ completed history ++ cancelled history

section Run
variable {listing : Listing} {actions : List Action} {history : History} {market : Market}

theorem accounted_of_replay (run : Market.replay listing actions = .ok (history, market)) :
    ((submitted history).map Order.number).Nodup → Accounted history market := by
  refine Market.replay_induction (motive := fun history market =>
    ((submitted history).map Order.number).Nodup → Accounted history market)
    (fun _ => .start listing) ?_ run
  intro history before later action answer formed accounts performed distinct
  rw [submitted_append, List.map_append, List.nodup_append] at distinct
  obtain ⟨earlier, -, fresh⟩ := distinct
  have accounted := accounts earlier
  have fewer := (accepted_sublist history).map Order.number
  rcases Market.perform_cases formed performed with
    ⟨now, order, report, pass, left, rfl, rfl, processes⟩ |
    ⟨request, order, rfl, rfl, removes, -⟩ | ⟨quiet, frame⟩
  · refine accounted.processed processes ?_ (earlier.sublist fewer)
    intro known
    exact fresh _ (fewer.subset known) _ (List.mem_singleton_self _) rfl
  · exact accounted.removed formed removes
  · exact accounted.quiet quiet (by rw [frame])

theorem exists_pass {before after : History} {action : Action} {report : Report}
    (run : Market.replay listing actions =
      .ok (before ++ (action, .outcome (.processed report)) :: after, market)) :
    ∃ now order first middle later pass left, action = .trade now order ∧
      Market.replay listing first = .ok (before, middle) ∧
      Market.Processes now order middle report later pass left := by
  obtain ⟨first, rest, middle, -, ran, follows⟩ := Market.performAll_split run
  cases rest with
  | nil => cases follows
  | cons action rest =>
      obtain ⟨answer, later, others, performed, -, same⟩ := Market.performAll_cons.mp follows
      obtain ⟨⟨rfl, rfl⟩, rfl⟩ := by simpa using same
      obtain ⟨-, formed⟩ := Market.wellFormed_of_replay ran
      rcases Market.perform_cases formed performed with
        ⟨now, order, report', pass, left, rfl, same, processes⟩ | ⟨_, _, _, same, -⟩ | ⟨quiet, -⟩
      · cases same
        exact ⟨now, order, first, middle, later, pass, left, rfl, ran, processes⟩
      · cases same
      · cases quiet.reports

theorem distinct_before {before after : History} {now : Instant} {order : Order}
    {report : Report} (distinct : ((submitted
      (before ++ (.trade now order, .outcome (.processed report)) :: after)).map
        Order.number).Nodup) :
    ((submitted before).map Order.number).Nodup ∧
      ((accepted before).map Order.number).Nodup ∧
      order.number ∉ (accepted before).map Order.number := by
  have fewer := (accepted_sublist before).map Order.number
  rw [submitted_append, List.map_append, List.nodup_append] at distinct
  obtain ⟨earlier, -, fresh⟩ := distinct
  refine ⟨earlier, earlier.sublist fewer, ?_⟩
  intro known
  exact fresh _ (fewer.subset known) order.number
    (by simp [submitted, Action.orders, Action.order?]) rfl

/-- An order that was reported as done or cancelled is in no later trade. -/
theorem no_trade_after_close {earlier later : History}
    (run : Market.replay listing actions = .ok (earlier ++ later, market))
    (distinct : ((submitted (earlier ++ later)).map Order.number).Nodup) {record : Order}
    (closed : record ∈ completed earlier ++ cancelled earlier) :
    ∀ trade ∈ trades later, ¬ trade.names record.number = true := by
  intro trade member
  obtain ⟨report, reported, inside⟩ := List.mem_flatMap.mp member
  obtain ⟨⟨action, answer⟩, entry, told⟩ := List.mem_filterMap.mp reported
  obtain ⟨middle, rest, rfl⟩ := List.append_of_mem entry
  obtain rfl : answer = .outcome (.processed report) := by
    rcases answer with (reason | own) | removed | - <;> simp_all
  -- the pass with this trade ran when the order was closed already
  rw [← List.append_assoc] at run distinct
  obtain ⟨now, order, first, at_market, after, pass, left, rfl, ran, processes⟩ := exists_pass run
  obtain ⟨earlier_distinct, accepted_distinct, fresh⟩ := distinct_before distinct
  have accounted := accounted_of_replay ran earlier_distinct
  refine accounted.unnamed_closed processes fresh accepted_distinct ?_ trade inside
  rw [completed_append, cancelled_append]
  simp only [List.mem_append] at closed ⊢
  tauto

theorem exists_record (accounted : Accounted history market) {order : Order}
    (known : order ∈ accepted history) :
    ∃ record ∈ records history market, record.number = order.number := by
  have member := Multiset.mem_map_of_mem Order.number (Multiset.mem_coe.mpr known)
  rw [← accounted.numbers, Multiset.coe_add, Multiset.coe_add] at member
  exact Multiset.mem_map.mp member

theorem record_of_number (accounted : Accounted history market)
    (distinct : ((accepted history).map Order.number).Nodup) {order record : Order}
    (known : order ∈ accepted history) (member : record ∈ records history market)
    (same : record.number = order.number) : ∃ last,
      order.afterTrades (Trade.naming order.number (trades history)) = .ok (some last) ∧
        (record = last ∨ record = last.cancel) := by
  -- no other accepted order has this number
  have followed {last : Order} (follows : Follows history last)
      (number : last.number = order.number) :
      order.afterTrades (Trade.naming order.number (trades history)) = .ok (some last) := by
    obtain ⟨first, accepted, first_number, followed⟩ := follows
    obtain rfl : first = order :=
      List.inj_on_of_nodup_map distinct accepted known (first_number.trans number)
    exact followed
  simp only [records, List.mem_append] at member
  rcases member with (resting | done) | cancelled
  · exact ⟨record, followed (accounted.resting record resting) same, Or.inl rfl⟩
  · exact ⟨record, followed (accounted.finished record done).2 same, Or.inl rfl⟩
  · obtain ⟨last, rfl, -, follows⟩ := accounted.withdrawn record cancelled
    rw [Order.number_of_terms (Order.terms_cancel last)] at same
    exact ⟨last, followed follows same, Or.inr rfl⟩

theorem records_nodup (accounted : Accounted history market)
    (distinct : ((accepted history).map Order.number).Nodup) :
    ((records history market).map Order.number).Nodup := by
  have apart := accounted.apart distinct
  rwa [Multiset.coe_add, Multiset.coe_add, Multiset.map_coe, Multiset.coe_nodup] at apart

end Run

end History

end SpotExchange
