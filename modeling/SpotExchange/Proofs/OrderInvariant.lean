import SpotExchange.Proofs.History

/-!
What all orders of a run have in common. A fact about single orders that holds of
every order that comes, and that a deal keeps for both of its orders, holds of all
orders wherever they are; and every trade is a deal of two such orders.
-/

namespace SpotExchange

namespace Pass

/-- Whether a fact about single orders is kept by every deal of two of them. -/
def Keeps (listing : Listing) (good : Order → Prop) : Prop :=
  ∀ {taker maker taken given : Order} {price amount money : Decimal}, good taker → good maker →
    Deal listing taker maker price amount money → taker.fill amount money = .ok taken →
      maker.fill amount money = .ok given → good taken ∧ good given

def Dealt (listing : Listing) (good : Order → Prop) (trade : Trade) : Prop :=
  ∃ taker maker now, good taker ∧ good maker ∧
    Deal listing taker maker trade.price trade.amount trade.money ∧
    trade = Trade.between taker maker trade.price trade.amount trade.money now

/-- What every deal keeps holds of all orders after a number of deals, and held of
both orders of each. -/
theorem dealings_keep {listing : Listing} {good : Order → Prop} {now : Instant}
    {pass later : Pass} {makers left : Multiset Order} (keeps : Keeps listing good)
    (steps : Dealings listing now pass makers later left) (taken : good pass.taker)
    (given : ∀ maker ∈ makers, good maker) :
    good later.taker ∧ (∀ record ∈ left, good record) ∧
      ∀ trade ∈ later.trades.toList, trade ∈ pass.trades.toList ∨ Dealt listing good trade := by
  induction steps with
  | refl => exact ⟨taken, given, fun _ => Or.inl⟩
  | report _ _ ih => exact ih
  | @deal middle last others maker filled price amount money steps terms settled ih =>
      obtain ⟨taker, records, dealt⟩ := ih
      have offered := records maker (Multiset.mem_cons_self _ _)
      obtain ⟨gave, took, pushed, -, -⟩ := settle_eq_ok settled
      obtain ⟨after_taker, after_maker⟩ := keeps taker offered terms took gave
      refine ⟨after_taker, ?_, ?_⟩
      · intro record member
        rcases Multiset.mem_cons.mp member with rfl | other
        · exact after_maker
        · exact records record (Multiset.mem_cons_of_mem other)
      · intro trade member
        rw [pushed, Array.toList_push] at member
        rcases List.mem_append.mp member with old | new
        · exact dealt trade old
        · rw [List.mem_singleton.mp new]
          exact Or.inr ⟨middle.taker, maker, now, taker, offered, terms, rfl⟩

end Pass

theorem Market.Processes.keeps {good : Order → Prop} {market later : Market} {now : Instant}
    {order : Order} {report : Report} {pass : Pass} {left : Multiset Order}
    (processes : Market.Processes now order market report later pass left)
    (keeps : Pass.Keeps market.listing good) (fresh : good order)
    (standing : ∀ resting ∈ market.book.orders, good resting) :
    (∀ record ∈ later.book.orders, good record) ∧ (∀ record ∈ report.completed, good record) ∧
      ∀ trade ∈ report.trades, Pass.Dealt market.listing good trade := by
  obtain ⟨taken, given, dealt⟩ := Pass.dealings_keep keeps processes.dealings fresh
    fun maker member => standing maker (OrderBook.mem_orders.mpr ⟨_, member⟩)
  -- wherever an order is afterwards, it took part or it stood on the same side
  have everywhere (record : Order)
      (member : record ∈ (later.book.orders + report.completed : Multiset Order)) :
      good record := by
    rw [processes.orders, Multiset.mem_cons, Multiset.mem_add] at member
    rcases member with rfl | own | other
    · exact taken
    · exact standing record (OrderBook.mem_orders.mpr ⟨_, own⟩)
    · exact given record other
  refine ⟨?_, ?_, ?_⟩
  · intro record member
    exact everywhere record (Multiset.mem_add.mpr (Or.inl member))
  · intro record member
    exact everywhere record (Multiset.mem_add.mpr (Or.inr member))
  · intro trade member
    rw [processes.trades] at member
    exact (dealt trade member).resolve_left List.not_mem_nil

namespace History

/-- A fact holds of every order: of those that rest, those that were reported as
done, the cancelled ones until then, and both orders of every trade. -/
structure Holds (listing : Listing) (good : Order → Prop) (history : History) (market : Market) :
    Prop where
  resting : ∀ order ∈ market.book.orders, good order
  finished : ∀ record ∈ completed history, record.isCompleted = true ∧ good record
  withdrawn : ∀ record ∈ cancelled history,
    ∃ last, record = last.cancel ∧ last.isCompleted = false ∧ good last
  dealt : ∀ trade ∈ trades history, Pass.Dealt listing good trade

section Holds
variable {listing : Listing} {good : Order → Prop} {history : History} {market later : Market}
  {action : Action} {answer : Answer}

theorem Holds.start (listing : Listing) (good : Order → Prop) :
    Holds listing good [] (.ofListing listing) where
  resting := by
    intro order member
    cases member
  finished := by
    intro record member
    cases member
  withdrawn := by
    intro record member
    cases member
  dealt := by
    intro trade member
    cases member

theorem Holds.append {entry : Action × Answer} (holds : Holds listing good history market)
    (resting : ∀ order ∈ later.book.orders, good order)
    (finished : ∀ record ∈ completed [entry], record.isCompleted = true ∧ good record)
    (withdrawn : ∀ record ∈ cancelled [entry],
      ∃ last, record = last.cancel ∧ last.isCompleted = false ∧ good last)
    (dealt : ∀ trade ∈ trades [entry], Pass.Dealt listing good trade) :
    Holds listing good (history ++ [entry]) later where
  resting := resting
  finished := by
    rw [completed_append]
    exact List.forall_mem_append.mpr ⟨holds.finished, finished⟩
  withdrawn := by
    rw [cancelled_append]
    exact List.forall_mem_append.mpr ⟨holds.withdrawn, withdrawn⟩
  dealt := by
    rw [trades_append]
    exact List.forall_mem_append.mpr ⟨holds.dealt, dealt⟩

theorem Holds.processed {now : Instant} {order : Order} {report : Report} {pass : Pass}
    {left : Multiset Order} (holds : Holds listing good history market)
    (keeps : Pass.Keeps market.listing good) (listed : market.listing = listing)
    (processes : Market.Processes now order market report later pass left) (fresh : good order) :
    Holds listing good (history ++ [(.trade now order, .outcome (.processed report))]) later := by
  obtain ⟨resting, finished, dealt⟩ := processes.keeps keeps fresh holds.resting
  apply holds.append
  · exact resting
  · intro record member
    rw [completed_processed] at member
    exact ⟨processes.finished record member, finished record member⟩
  · intro record member
    cases member
  · rw [trades_processed]
    exact listed ▸ dealt

theorem Holds.removed {request : CancelRequest} {order : Order}
    (holds : Holds listing good history market) (formed : market.book.WellFormed market.symbol)
    (removes : market.book.Removes order later.book) :
    Holds listing good (history ++ [(.cancel request, .removed (some order.cancel))]) later := by
  have rested (record : Order) : record ∈ market.book.orders ↔
      record = order ∨ record ∈ later.book.orders := by
    rw [← Multiset.mem_coe, removes.orders, Multiset.mem_cons, Multiset.mem_coe]
  apply holds.append
  · intro record member
    exact holds.resting record ((rested record).mpr (Or.inr member))
  · intro record member
    cases member
  · intro record member
    have standing := (rested order).mpr (Or.inl rfl)
    obtain ⟨side, inside⟩ := OrderBook.mem_orders.mp standing
    exact ⟨order, List.mem_singleton.mp member, (formed.rests inside).2.live,
      holds.resting order standing⟩
  · intro trade member
    cases member

theorem Holds.perform (holds : Holds listing good history market)
    (keeps : Pass.Keeps market.listing good) (listed : market.listing = listing)
    (formed : market.book.WellFormed market.symbol)
    (fresh : ∀ order ∈ Action.orders [action], order.isCompleted = false → good order)
    (performed : market.perform action = .ok (answer, later)) :
    Holds listing good (history ++ [(action, answer)]) later := by
  rcases Market.perform_cases formed performed with
    ⟨now, order, report, pass, left, rfl, rfl, processes⟩ |
    ⟨request, order, rfl, rfl, removes, -⟩ | ⟨quiet, frame⟩
  · exact holds.processed keeps listed processes
      (fresh order (List.mem_singleton_self _) processes.accepts.rests.live)
  · exact holds.removed formed removes
  · apply holds.append
    · rw [frame]
      exact holds.resting
    · rw [quiet.completed]
      exact fun _ member => nomatch member
    · rw [quiet.cancelled]
      exact fun _ member => nomatch member
    · rw [quiet.trades]
      exact fun _ member => nomatch member

end Holds

/-- What holds of every order that comes, and is kept by every deal, holds of all
orders after a run. -/
theorem holds_of_replay {listing : Listing} {good : Order → Prop} {actions : List Action}
    {history : History} {market : Market} (keeps : Pass.Keeps listing good)
    (run : Market.replay listing actions = .ok (history, market))
    (fresh : ∀ order ∈ Action.orders actions, order.isCompleted = false → good order) :
    Holds listing good history market := by
  have kept := Market.replay_induction (motive := fun history market =>
    (∀ order ∈ submitted history, order.isCompleted = false → good order) →
      market.listing = listing ∧ Holds listing good history market) ?_ ?_ run
  · rw [Market.submitted_of_replay run] at kept
    exact (kept fresh).2
  · exact fun _ => ⟨rfl, .start listing good⟩
  · intro history before later action answer formed kept performed fresh
    rw [submitted_append] at fresh
    obtain ⟨earlier, last⟩ := List.forall_mem_append.mp fresh
    obtain ⟨listed, holds⟩ := kept earlier
    exact ⟨(Market.wellFormed_perform formed performed).1.trans listed,
      holds.perform (listed ▸ keeps) listed formed last performed⟩

end History

end SpotExchange
