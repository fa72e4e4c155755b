import SpotExchange.Proofs.RankedDepth

/-!
The events of a run as its record. Each answer is told by a group of events of its own:
that of a pass has its trades in batches, the orders that are done and each view that
changed, in this order; that of a cancellation has the order and then its view; and what
changes nothing is not told. So whoever adds up the events has every trade once.
-/

namespace SpotExchange

section Batches
variable {α : Type} {size : Nat}

theorem inBatches_ne_nil {first : α} {rest : List α} : inBatches size (first :: rest) ≠ [] := by
  simp [inBatches]

theorem flatten_inBatches (size : Nat) (items : List α) :
    (inBatches size items).flatten = items := by
  induction items using inBatches.induct size with
  | case1 => simp [inBatches]
  | case2 first rest ih => simp [inBatches, ih]

theorem length_inBatches (positive : 0 < size) (items : List α) :
    (∀ batch ∈ inBatches size items, 0 < batch.length ∧ batch.length ≤ size) ∧
      ∀ batch ∈ (inBatches size items).dropLast, batch.length = size := by
  induction items using inBatches.induct size with
  | case1 => simp [inBatches]
  | case2 first rest ih =>
      obtain ⟨sized, full⟩ := ih
      rw [inBatches]
      refine ⟨List.forall_mem_cons.mpr ⟨?_, sized⟩, ?_⟩
      · rw [List.length_cons, List.length_take]
        omega
      · cases behind : rest.drop (size - 1) with
        | nil => simp [inBatches]
        | cons next others =>
            rw [behind] at full
            rw [List.dropLast_cons_of_ne_nil inBatches_ne_nil]
            refine List.forall_mem_cons.mpr ⟨?_, full⟩
            -- there is more, so the first batch took all it can
            have more := congrArg List.length behind
            rw [List.length_drop, List.length_cons] at more
            rw [List.length_cons, List.length_take]
            omega

end Batches

namespace Counter

variable {α : Type} [DecidableEq α]

theorem total_add (label : α) (count : Nat) (counter : Counter α) :
    (counter.add label count).total label = counter.total label + count := by
  induction counter with
  | nil => simp [add, total]
  | cons entry rest ih =>
      obtain ⟨known, sum⟩ := entry
      rw [add]
      by_cases same : known = label
      · simp [same, total]
      · have other : (label == known) = false := by simpa using Ne.symm same
        simp only [total] at ih
        simp [same, total, List.lookup_cons, other, ih]

end Counter

def Event.traded : Event → List Trade
  | .trades _ batch => batch
  | _ => []

/-- The events that tell an answer: batches of at most `limit` trades, all but the last one
full, then the orders that are done, then a snapshot of each side that changed, each once;
the order that was cancelled, and then a snapshot of its side if it has a limit; and nothing
for all that changed nothing. -/
inductive Tells (limit : Nat) (symbol : String) : Answer → List Event → Prop
  | refused (reason : Refusal) : Tells limit symbol (.outcome (.refused reason)) []
  | processed {report : Report} {batches : List (List Trade)} {snapshots : List DepthSnapshot}
      (whole : batches.flatten = report.trades)
      (sized : ∀ batch ∈ batches, 0 < batch.length ∧ batch.length ≤ limit)
      (full : ∀ batch ∈ batches.dropLast, batch.length = limit)
      (changed : snapshots.map DepthSnapshot.side = report.depthChanged)
      (once : report.depthChanged.Nodup)
      (own : ∀ snapshot ∈ snapshots, snapshot.symbol = symbol) :
      Tells limit symbol (.outcome (.processed report))
        (batches.map (.trades symbol) ++
          (if report.completed = [] then [] else [.completed symbol report.completed]) ++
          snapshots.map .depth)
  | cancelledLimit {order : Order} {snapshot : DepthSnapshot} (kind : order.kind = .limit)
      (side : snapshot.side = order.side) (own : snapshot.symbol = symbol) :
      Tells limit symbol (.removed (some order)) [.cancelled symbol [order], .depth snapshot]
  | cancelledMarket {order : Order} (kind : order.kind = .market) :
      Tells limit symbol (.removed (some order)) [.cancelled symbol [order]]
  | absent : Tells limit symbol (.removed none) []
  | done : Tells limit symbol .done []

section Tells
variable {limit : Nat} {symbol : String} {answer : Answer} {events : List Event}

theorem Tells.traded (action : Action) (tells : Tells limit symbol answer events) :
    events.flatMap Event.traded = History.trades [(action, answer)] := by
  cases tells with
  | refused | cancelledLimit | cancelledMarket | absent | done => rfl
  | @processed report batches snapshots whole =>
      have done : (if report.completed = [] then [] else
          [Event.completed symbol report.completed]).flatMap Event.traded = [] := by
        split <;> rfl
      have views : (snapshots.map Event.depth).flatMap Event.traded = [] := by
        rw [List.flatMap_map]
        exact List.flatMap_eq_nil_iff.mpr fun _ _ => rfl
      have all : (batches.map (Event.trades symbol)).flatMap Event.traded = report.trades := by
        rw [List.flatMap_map, ← whole, List.flatMap_def]
        exact congrArg List.flatten (List.map_id batches)
      rw [List.flatMap_append, List.flatMap_append, done, views, all, List.append_nil,
        List.append_nil]
      simp [History.trades, History.reports]

theorem traded_of_tells {history : History} {groups : List (List Event)}
    (tells : List.Forall₂ (fun entry group => Tells limit symbol entry.2 group) history groups) :
    groups.flatten.flatMap Event.traded = History.trades history := by
  induction tells with
  | nil => rfl
  | @cons entry group rest others first _ ih =>
      have split : History.trades (entry :: rest) =
          History.trades [entry] ++ History.trades rest := History.trades_append [entry] rest
      rw [List.flatten_cons, List.flatMap_append, ih, first.traded entry.1, split]

end Tells

namespace Market

section Tells
variable {market later : Market} {limit : Nat} {report : Report}

theorem depthChanged_nodup {now : Instant} {order : Order}
    (formed : market.book.WellFormed market.symbol)
    (traded : market.trade now order = .ok (.processed report, later)) :
    report.depthChanged.Nodup := by
  obtain ⟨pass, left, processes⟩ := processes_of_trade formed traded
  obtain ⟨after, -, ended⟩ := processes.ended
  obtain ⟨changed, own, -, told⟩ := depthChanged_of_finish ended
  have other := Side.opposite_ne pass.taker.side
  rw [told]
  cases changed <;> cases own <;> simp [other]

theorem tells_report (positive : 0 < limit) (labelled : market.Labelled)
    (once : report.depthChanged.Nodup) :
    Tells limit market.symbol (.outcome (.processed report))
      (market.reportEvents limit report) := by
  obtain ⟨sized, full⟩ := length_inBatches positive report.trades
  have views : (report.depthChanged.map fun side => Event.depth (market.snapshot side)) =
      (report.depthChanged.map market.snapshot).map .depth := by
    rw [List.map_map]
    rfl
  have done : (if report.completed.isEmpty then [] else
        [Event.completed market.symbol report.completed]) =
      if report.completed = [] then [] else [.completed market.symbol report.completed] := by
    simp only [List.isEmpty_iff]
  rw [reportEvents, views, done]
  refine .processed (flatten_inBatches limit report.trades) sized full ?_ once ?_
  · rw [List.map_map]
    exact (List.map_congr_left fun side _ => labelled side).trans (List.map_id _)
  · exact List.forall_mem_map.mpr fun _ _ => rfl

theorem tells_cancellation (labelled : market.Labelled) (order : Order) :
    Tells limit market.symbol (.removed (some order)) (market.cancellationEvents order) := by
  cases kind : order.kind with
  | limit =>
      simp only [cancellationEvents, kind]
      exact .cancelledLimit kind (labelled order.side) rfl
  | market =>
      simp only [cancellationEvents, kind]
      exact .cancelledMarket kind

theorem tells_of_perform {action : Action} {answer : Answer} (positive : 0 < limit)
    (formed : market.book.WellFormed market.symbol) (labelled : market.Labelled)
    (performed : market.perform action = .ok (answer, later)) :
    Tells limit market.symbol answer (answer.events later limit) := by
  have same : later.symbol = market.symbol :=
    congrArg Listing.name (wellFormed_perform formed performed).1
  have labels := (perform_shows formed labelled performed).labelled
  rw [← same]
  cases action with
  | trade now order =>
      simp only [perform, bind_eq_ok, return_eq_ok] at performed
      obtain ⟨⟨outcome, after⟩, traded, ended⟩ := performed
      cases ended
      cases outcome with
      | refused reason => exact .refused reason
      | processed report =>
          exact tells_report positive labels (depthChanged_nodup formed traded)
  | cancel request =>
      simp only [perform, bind_eq_ok, return_eq_ok] at performed
      obtain ⟨⟨removed, after⟩, -, ended⟩ := performed
      cases ended
      cases removed with
      | none => exact .absent
      | some order => exact tells_cancellation labels order
  | halt | resume | setReady =>
      cases performed
      exact .done

end Tells

end Market

namespace Desk

section Metrics
variable (desk : Desk) (market : Market)

theorem trades_publishCounted (symbol : String) (events : List Event) :
    (desk.publishCounted symbol events).metrics.trades = desk.metrics.trades := by
  unfold publishCounted
  split <;> rename_i same <;> simp only [publish, Prod.mk.injEq] at same <;> rw [← same.2]
  rfl

theorem trades_tell (action : Action) (answer : Answer) :
    (desk.tell market answer).metrics.trades.total market.symbol =
      desk.metrics.trades.total market.symbol + (History.trades [(action, answer)]).length := by
  cases answer with
  | outcome outcome =>
      cases outcome with
      | refused reason => rfl
      | processed report =>
          rw [tell, record, trades_publishCounted]
          have told : History.trades [(action, .outcome (.processed report))] = report.trades := by
            simp [History.trades, History.reports]
          rw [told]
          by_cases none : report.trades.length = 0
          · simp [Metrics.countTrades, none, Metrics.countOrder, Metrics.countPass]
          · simp [Metrics.countTrades, none, Metrics.countOrder, Metrics.countPass,
              Counter.total_add]
  | removed order =>
      cases order with
      | none => rfl
      | some order =>
          rw [tell, trades_publishCounted]
          rfl
  | done => rfl

end Metrics

/-- A run through a desk whose channel takes all events is told answer by answer. -/
theorem tells_of_performAll {limit : Nat} {desk after : Desk} {market last : Market}
    {sent : Array Event} {actions : List Action} {history : History} (positive : 0 < limit)
    (sized : desk.maxTradeBatch = limit) (sink : desk.sink = .channel none sent)
    (formed : market.book.WellFormed market.symbol) (labelled : market.Labelled)
    (run : desk.performAll market actions = .ok (history, last, after)) :
    ∃ groups : List (List Event), after.sink = .channel none (sent ++ groups.flatten.toArray) ∧
      List.Forall₂ (fun entry group => Tells limit market.symbol entry.2 group) history groups ∧
      after.metrics.trades.total market.symbol =
        desk.metrics.trades.total market.symbol + (History.trades history).length := by
  induction actions generalizing desk market sent history with
  | nil =>
      cases run
      exact ⟨[], by simpa using sink, .nil, rfl⟩
  | cons action rest ih =>
      simp only [performAll, bind_eq_ok, return_eq_ok] at run
      obtain ⟨⟨answer, middle, next⟩, first, ⟨later, _, _⟩, others, same⟩ := run
      cases same
      obtain ⟨performed, rfl⟩ := perform_eq_ok first
      obtain ⟨listing, formed'⟩ := Market.wellFormed_perform formed performed
      have symbol : middle.symbol = market.symbol := congrArg Listing.name listing
      have labelled' := (Market.perform_shows formed labelled performed).labelled
      have told := Market.tells_of_perform positive formed labelled performed
      obtain ⟨groups, handed, tells, counted⟩ :=
        ih ((maxTradeBatch_tell desk middle answer).trans sized) (tell_unbounded sink middle answer)
          formed' labelled' others
      rw [sized] at handed
      rw [symbol] at tells counted
      refine ⟨answer.events middle limit :: groups, ?_, .cons told tells, ?_⟩
      · rw [handed, List.flatten_cons, ← List.append_toArray, Array.append_assoc]
      · have more := desk.trades_tell middle action answer
        rw [symbol] at more
        have split : History.trades ((action, answer) :: later) =
            History.trades [(action, answer)] ++ History.trades later :=
          History.trades_append [(action, answer)] later
        rw [counted, more, split, List.length_append, add_assoc]

end Desk

/-- The events of a run are its record. From any market that a run has led to, and with any
limit of trades for one event, nought acting as one, each answer is told by a group of events
of its own: no group tells of what changed nothing; the trades of all events, one after the
other, are those of all passes; and by as many the count of trades has grown. -/
theorem events_record_run {listing : Listing} {earlier actions : List Action}
    {past history : History} {market last : Market} (batch : Nat) (sent : Array Event)
    (metrics : Metrics) {after : Desk} (start : Market.replay listing earlier = .ok (past, market))
    (run : Desk.performAll { Desk.onSink (.channel none sent) batch with metrics } market actions =
      .ok (history, last, after)) :
    ∃ groups : List (List Event), after.sink = .channel none (sent ++ groups.flatten.toArray) ∧
      List.Forall₂ (fun entry group => Tells (max batch 1) market.symbol entry.2 group)
        history groups ∧
      groups.flatten.flatMap Event.traded = History.trades history ∧
      after.metrics.trades.total market.symbol =
        metrics.trades.total market.symbol + (History.trades history).length := by
  have ranked := Market.ranked_of_replay start
  have sized : { Desk.onSink (.channel none sent) batch with metrics }.maxTradeBatch =
      max batch 1 := by
    change (if batch = 0 then 1 else batch) = max batch 1
    split_ifs <;> omega
  obtain ⟨groups, handed, tells, counted⟩ := Desk.tells_of_performAll
    (by omega) sized rfl (Market.wellFormed_of_replay start).2
    (fun side => (ranked side).side_eq) run
  exact ⟨groups, handed, tells, traded_of_tells tells, counted⟩

theorem sample_events_record : ∃ market history last after, ∃ groups : List (List Event),
    Desk.performAll { Desk.onSink (.channel none #[]) 0 with metrics := .empty } market
        [.trade default History.sampleBid,
          .cancel (History.issueAsk "second" (.ofParts 6 0)).cancelRequest,
          .cancel (History.issueAsk "second" (.ofParts 6 0)).cancelRequest] =
      .ok (history, last, after) ∧
    after.sink = .channel none groups.flatten.toArray ∧
    List.Forall₂ (fun entry group => Tells 1 market.symbol entry.2 group) history groups ∧
    (groups.flatten.flatMap Event.traded).map (fun trade => trade.sellNumber) =
      ["first", "second"] ∧
    after.metrics.trades.total market.symbol = 2 := by
  obtain ⟨past, market, history, last, start, ran, trades, symbol⟩ :
      ∃ past market history last,
        Market.replay (.named "coin") History.issueAsks = .ok (past, market) ∧
        market.performAll [.trade default History.sampleBid,
            .cancel (History.issueAsk "second" (.ofParts 6 0)).cancelRequest,
            .cancel (History.issueAsk "second" (.ofParts 6 0)).cancelRequest] =
          .ok (history, last) ∧
        (History.trades history).map (fun trade => trade.sellNumber) = ["first", "second"] ∧
        market.symbol = "coin" := ⟨_, _, _, _, rfl, rfl, by decide +kernel, rfl⟩
  obtain ⟨after, told⟩ := Desk.performAll_of_market
    { Desk.onSink (.channel none #[]) 0 with metrics := .empty } ran
  obtain ⟨groups, handed, tells, traded, counted⟩ := events_record_run 0 #[] .empty start told
  rw [Array.empty_append] at handed
  refine ⟨market, history, last, after, groups, told, handed, tells, traded ▸ trades, ?_⟩
  have two := congrArg List.length trades
  rw [List.length_map] at two
  rw [counted, two]
  rfl

end SpotExchange
