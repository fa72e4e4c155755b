import SpotExchange.Proofs.TradeStep

/-!
Runs of one market: what it was asked from the start, and what it answered. A run
in which nothing overflows has a history; a fact that every answer keeps holds
after all of them.
-/

namespace SpotExchange

inductive Action where
  | trade (now : Instant) (order : Order)
  | cancel (request : CancelRequest)
  | halt
  | resume
  | setReady (ready : Bool)
  deriving DecidableEq

def Action.order? : Action → Option Order
  | .trade _ order => some order
  | _ => none

def Action.orders (actions : List Action) : List Order := actions.filterMap Action.order?

theorem Action.orders_cons (action : Action) (rest : List Action) :
    Action.orders (action :: rest) = Action.orders [action] ++ Action.orders rest := by
  rw [orders, ← List.singleton_append, List.filterMap_append]
  rfl

inductive Answer where
  | outcome (outcome : Outcome)
  | removed (order : Option Order)
  | done
  deriving DecidableEq

/-- Actions with their answers, the first one first. -/
abbrev History := List (Action × Answer)

namespace History

def submitted (history : History) : List Order := Action.orders (history.map Prod.fst)

/-- The orders that were matched. -/
def accepted (history : History) : List Order :=
  history.filterMap fun
    | (.trade _ order, .outcome (.processed _)) => some order
    | _ => none

def refused (history : History) : List Order :=
  history.filterMap fun
    | (.trade _ order, .outcome (.refused _)) => some order
    | _ => none

def reports (history : History) : List Report :=
  history.filterMap fun
    | (_, .outcome (.processed report)) => some report
    | _ => none

def trades (history : History) : List Trade := (reports history).flatMap Report.trades

def completed (history : History) : List Order := (reports history).flatMap Report.completed

def cancelled (history : History) : List Order :=
  history.filterMap fun
    | (_, .removed order) => order
    | _ => none

section Append
variable (earlier later : History)

@[simp] theorem submitted_append :
    submitted (earlier ++ later) = submitted earlier ++ submitted later := by
  rw [submitted, List.map_append, Action.orders, List.filterMap_append]
  rfl

@[simp] theorem accepted_append :
    accepted (earlier ++ later) = accepted earlier ++ accepted later := List.filterMap_append

@[simp] theorem refused_append :
    refused (earlier ++ later) = refused earlier ++ refused later := List.filterMap_append

@[simp] theorem reports_append :
    reports (earlier ++ later) = reports earlier ++ reports later := List.filterMap_append

@[simp] theorem trades_append : trades (earlier ++ later) = trades earlier ++ trades later := by
  rw [trades, reports_append, List.flatMap_append]
  rfl

@[simp] theorem completed_append :
    completed (earlier ++ later) = completed earlier ++ completed later := by
  rw [completed, reports_append, List.flatMap_append]
  rfl

@[simp] theorem cancelled_append :
    cancelled (earlier ++ later) = cancelled earlier ++ cancelled later := List.filterMap_append

end Append

section Entries
variable (now : Instant) (order : Order) (report : Report) (request : CancelRequest)

@[simp] theorem accepted_processed :
    accepted [(.trade now order, .outcome (.processed report))] = [order] := rfl

@[simp] theorem trades_processed :
    trades [(.trade now order, .outcome (.processed report))] = report.trades := by
  simp [trades, reports]

@[simp] theorem completed_processed :
    completed [(.trade now order, .outcome (.processed report))] = report.completed := by
  simp [completed, reports]

@[simp] theorem cancelled_processed :
    cancelled [(.trade now order, .outcome (.processed report))] = [] := rfl

@[simp] theorem accepted_removed : accepted [(.cancel request, .removed (some order))] = [] := rfl

@[simp] theorem trades_removed : trades [(.cancel request, .removed (some order))] = [] := rfl

@[simp] theorem completed_removed : completed [(.cancel request, .removed (some order))] = [] := rfl

@[simp] theorem cancelled_removed :
    cancelled [(.cancel request, .removed (some order))] = [order] := rfl

end Entries

/-- An answer that tells of no order that came, traded or left. -/
structure Quiet (entry : Action × Answer) : Prop where
  accepted : accepted [entry] = []
  reports : reports [entry] = []
  cancelled : cancelled [entry] = []
  submitted : submitted [entry] = refused [entry]

theorem Quiet.trades {entry : Action × Answer} (quiet : Quiet entry) :
    History.trades [entry] = [] := by
  rw [History.trades, quiet.reports, List.flatMap_nil]

theorem Quiet.completed {entry : Action × Answer} (quiet : Quiet entry) :
    History.completed [entry] = [] := by
  rw [History.completed, quiet.reports, List.flatMap_nil]

end History

namespace Market

def perform (market : Market) : Action → Except Overflow (Answer × Market)
  | .trade now order => do
    let (outcome, market) ← market.trade now order
    return (.outcome outcome, market)
  | .cancel request => do
    let (removed, market) ← market.cancel request
    return (.removed removed, market)
  | .halt => .ok (.done, market.halt)
  | .resume => .ok (.done, market.resume)
  | .setReady ready => .ok (.done, market.setReady ready)

def performAll (market : Market) : List Action → Except Overflow (History × Market)
  | [] => .ok ([], market)
  | action :: rest => do
    let (answer, market) ← market.perform action
    let (history, market) ← market.performAll rest
    return ((action, answer) :: history, market)

/-- A run from an empty market with this listing. -/
def replay (listing : Listing) (actions : List Action) : Except Overflow (History × Market) :=
  (Market.ofListing listing).performAll actions

theorem performAll_cons {market last : Market} {action : Action} {rest : List Action}
    {history : History} :
    market.performAll (action :: rest) = .ok (history, last) ↔
      ∃ answer middle later, market.perform action = .ok (answer, middle) ∧
        middle.performAll rest = .ok (later, last) ∧ history = (action, answer) :: later := by
  simp only [performAll, bind_eq_ok, return_eq_ok]
  constructor
  · rintro ⟨⟨answer, middle⟩, first, ⟨later, final⟩, others, same⟩
    cases same
    exact ⟨answer, middle, later, first, others, rfl⟩
  · rintro ⟨answer, middle, later, first, others, rfl⟩
    exact ⟨(answer, middle), first, (later, last), others, rfl⟩

theorem performAll_induction {motive : History → Market → Prop}
    (step : ∀ {history : History} {market later : Market} {action : Action} {answer : Answer},
      motive history market → market.perform action = .ok (answer, later) →
        motive (history ++ [(action, answer)]) later)
    (before : History) {after : History} {market last : Market} {actions : List Action}
    (start : motive before market) (run : market.performAll actions = .ok (after, last)) :
    motive (before ++ after) last := by
  -- over the actions still to come, whatever history they find
  induction actions generalizing before after market with
  | nil =>
      cases run
      rwa [List.append_nil]
  | cons action rest ih =>
      obtain ⟨answer, middle, later, first, others, rfl⟩ := performAll_cons.mp run
      have whole := ih _ (step start first) others
      rwa [List.append_assoc, List.singleton_append] at whole

theorem actions_of_performAll {market last : Market} {actions : List Action} {history : History}
    (run : market.performAll actions = .ok (history, last)) : history.map Prod.fst = actions := by
  induction actions generalizing market history with
  | nil =>
      cases run
      rfl
  | cons action rest ih =>
      obtain ⟨answer, middle, later, -, others, rfl⟩ := performAll_cons.mp run
      rw [List.map_cons, ih others]

theorem submitted_of_replay {listing : Listing} {actions : List Action} {history : History}
    {market : Market} (run : replay listing actions = .ok (history, market)) :
    History.submitted history = Action.orders actions := by
  rw [History.submitted, actions_of_performAll run]

/-- A history can be cut anywhere: its first part is that of a run of its own. -/
theorem performAll_split {market last : Market} {actions : List Action} {earlier later : History}
    (run : market.performAll actions = .ok (earlier ++ later, last)) :
    ∃ first rest middle, actions = first ++ rest ∧ market.performAll first = .ok (earlier, middle) ∧
      middle.performAll rest = .ok (later, last) := by
  induction earlier generalizing market actions with
  | nil => exact ⟨[], actions, market, rfl, rfl, run⟩
  | cons entry earlier ih =>
      cases actions with
      | nil => cases run
      | cons action actions =>
          obtain ⟨answer, middle, others, first, tail, same⟩ := performAll_cons.mp run
          obtain ⟨rfl, rfl⟩ := List.cons_eq_cons.mp same
          obtain ⟨front, rest, cut, rfl, before, after⟩ := ih tail
          exact ⟨action :: front, rest, cut, rfl,
            performAll_cons.mpr ⟨answer, middle, earlier, first, before, rfl⟩, after⟩

theorem perform_cases {market later : Market} {action : Action} {answer : Answer}
    (formed : market.book.WellFormed market.symbol)
    (performed : market.perform action = .ok (answer, later)) :
    (∃ now order report pass left, action = .trade now order ∧
        answer = .outcome (.processed report) ∧
        Processes now order market report later pass left) ∨
    (∃ request order, action = .cancel request ∧ answer = .removed (some order.cancel) ∧
        market.book.Removes order later.book ∧
        later = { market with book := later.book, depths := later.depths }) ∨
    (History.Quiet (action, answer) ∧
      later = { market with halted := later.halted, ready := later.ready }) := by
  cases action with
  | trade now order =>
      simp only [perform, bind_eq_ok, return_eq_ok] at performed
      obtain ⟨⟨outcome, after⟩, traded, same⟩ := performed
      cases same
      cases outcome with
      | refused reason =>
          rcases trade_cases traded with ⟨_, _, _, rfl⟩ | ⟨_, _, _, processed, -⟩
          · exact Or.inr (Or.inr ⟨⟨rfl, rfl, rfl, rfl⟩, rfl⟩)
          · cases processed
      | processed report =>
          obtain ⟨pass, left, processes⟩ := processes_of_trade formed traded
          exact Or.inl ⟨now, order, report, pass, left, rfl, rfl, processes⟩
  | cancel request =>
      simp only [perform, bind_eq_ok, return_eq_ok] at performed
      obtain ⟨⟨removed, after⟩, cancelled, same⟩ := performed
      cases same
      rcases cancel_cases cancelled with ⟨rfl, rfl⟩ | ⟨order, rfl, -, removes, frame, -⟩
      · exact Or.inr (Or.inr ⟨⟨rfl, rfl, rfl, rfl⟩, rfl⟩)
      · exact Or.inr (Or.inl ⟨request, order, rfl, rfl, removes, frame⟩)
  | halt =>
      cases performed
      exact Or.inr (Or.inr ⟨⟨rfl, rfl, rfl, rfl⟩, rfl⟩)
  | resume =>
      cases performed
      exact Or.inr (Or.inr ⟨⟨rfl, rfl, rfl, rfl⟩, rfl⟩)
  | setReady ready =>
      cases performed
      exact Or.inr (Or.inr ⟨⟨rfl, rfl, rfl, rfl⟩, rfl⟩)

theorem wellFormed_perform {market later : Market} {action : Action} {answer : Answer}
    (formed : market.book.WellFormed market.symbol)
    (performed : market.perform action = .ok (answer, later)) :
    later.listing = market.listing ∧ later.book.WellFormed later.symbol := by
  rcases perform_cases formed performed with ⟨_, _, _, _, _, -, -, processes⟩ |
    ⟨_, _, -, -, removes, frame⟩ | ⟨-, frame⟩
  · exact ⟨by rw [processes.frame], processes.formed⟩
  · refine ⟨by rw [frame], ?_⟩
    have kept := removes.formed formed
    rw [frame]
    exact kept
  · rw [frame]
    exact ⟨rfl, formed⟩

theorem wellFormed_of_replay {listing : Listing} {actions : List Action} {history : History}
    {market : Market} (run : replay listing actions = .ok (history, market)) :
    market.listing = listing ∧ market.book.WellFormed market.symbol := by
  refine performAll_induction (motive := fun _ market =>
    market.listing = listing ∧ market.book.WellFormed market.symbol) ?_ [] ⟨rfl, .empty _⟩ run
  intro _ before later action answer kept performed
  obtain ⟨same, formed⟩ := wellFormed_perform kept.2 performed
  exact ⟨same.trans kept.1, formed⟩

/-- What holds of an empty market and is kept by every action on a book of good
shape holds after every run. -/
theorem replay_induction {motive : History → Market → Prop} {listing : Listing}
    (start : motive [] (.ofListing listing))
    (step : ∀ {history : History} {market later : Market} {action : Action} {answer : Answer},
      market.book.WellFormed market.symbol → motive history market →
        market.perform action = .ok (answer, later) → motive (history ++ [(action, answer)]) later)
    {actions : List Action} {history : History} {market : Market}
    (run : replay listing actions = .ok (history, market)) : motive history market := by
  have both := performAll_induction (motive := fun history market =>
    market.book.WellFormed market.symbol ∧ motive history market) ?_ [] ⟨.empty _, start⟩ run
  · exact both.2
  · intro history before later action answer kept performed
    exact ⟨(wellFormed_perform kept.1 performed).2, step kept.1 kept.2 performed⟩

theorem submitted_perm_of_replay {listing : Listing} {actions : List Action} {history : History}
    {market : Market} (run : replay listing actions = .ok (history, market)) :
    (History.submitted history).Perm (History.accepted history ++ History.refused history) := by
  refine replay_induction (motive := fun history _ =>
    (History.submitted history).Perm (History.accepted history ++ History.refused history))
    (.refl _) ?_ run
  intro history before later action answer formed perm performed
  rw [History.submitted_append, History.accepted_append, History.refused_append]
  have last : (History.submitted [(action, answer)]).Perm
      (History.accepted [(action, answer)] ++ History.refused [(action, answer)]) := by
    rcases perform_cases formed performed with ⟨_, _, _, _, _, rfl, rfl, -⟩ |
      ⟨_, _, rfl, rfl, -, -⟩ | ⟨quiet, -⟩
    · exact .refl _
    · exact .refl _
    · rw [quiet.accepted, quiet.submitted]
      exact .refl _
  apply (perm.append last).trans
  rw [List.append_assoc, List.append_assoc]
  apply List.Perm.append_left
  rw [← List.append_assoc, ← List.append_assoc]
  exact List.perm_append_comm.append_right _

end Market

def History.sampleActions : List Action :=
  let ask := Order.limit "ask" 1 "coin" .sell (.ofParts 100 0) (.ofParts 5 0) default
  let bid := Order.limit "bid" 2 "coin" .buy (.ofParts 101 0) (.ofParts 3 0) default
  [.trade default ask, .trade default bid, .trade default { ask with number := "next" },
    .trade default { bid with number := "low", price := .ofParts 995 1 },
    .cancel ask.cancelRequest, .cancel bid.cancelRequest]

def History.sampleBid : Order := .limit "deep" 3 "coin" .buy (.ofParts 100 0) (.ofParts 6 0) default

def History.narrowActions : List Action :=
  let bid := Order.limit "low" 1 "coin" .buy (.ofParts 100 0) (.ofParts 5 0) default
  [.trade default bid,
    .trade default { bid with number := "high", price := .ofParts 101 0, amount := .ofParts 3 0 },
    .trade default (.limit "ask" 2 "coin" .sell (.ofParts 101 0) (.ofParts 1 0) default)]

def History.buyActions (asks : List String) (price amount money : Decimal) : List Action :=
  asks.map (fun number => .trade default (.limit number 1 "coin" .sell price amount default)) ++
    [.trade default (.market "buy" 2 "coin" .buy money default)]

def History.sampleAsk (number : String) : Order :=
  .limit number 1 "coin" .sell (.ofParts 333 2) (.ofParts 10 0) default

def History.mixedBid : Order := .limit "bid" 3 "coin" .buy (.ofParts 100 0) (.ofParts 5 0) default

/-- A listing with an issuance window for bids. -/
def Listing.issuing : Listing := { Listing.named "coin" with issuance := some ⟨⟨1, 0⟩, .buy⟩ }

def History.issueAsk (number : String) (amount : Decimal) : Order :=
  .limit number 1 "coin" .sell (.ofParts 100 0) amount default

def History.issueAsks : List Action :=
  [.trade default (issueAsk "first" (.ofParts 4 0)),
    .trade default (issueAsk "second" (.ofParts 6 0))]

def History.issueBid : Order := .limit "bid" 2 "coin" .buy (.ofParts 101 0) (.ofParts 5 0) default

end SpotExchange
