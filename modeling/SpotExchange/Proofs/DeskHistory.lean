import SpotExchange.Desk
import SpotExchange.Proofs.History

/-!
Runs through a desk: the market answers as it does by itself, and the desk publishes
what each answer lets the world know. A channel without a bound takes every event, so
what it was handed over a run is what all answers tell, in order.
-/

namespace SpotExchange

/-- What an answer lets the world know, read off the market as it is afterwards. -/
def Answer.events (market : Market) (batch : Nat) : Answer → List Event
  | .outcome (.processed report) => market.reportEvents batch report
  | .removed (some order) => market.cancellationEvents order
  | _ => []

theorem Sink.publishAll_unbounded (sent : Array Event) (events : List Event) :
    (Sink.channel none sent).publishAll events =
      (true, Sink.channel none (sent ++ events.toArray)) := by
  induction events generalizing sent with
  | nil => simp [publishAll]
  | cons event rest ih => simp [publishAll, publish, ih]

namespace Desk

def tell (desk : Desk) (market : Market) : Answer → Desk
  | .outcome outcome => desk.record market outcome
  | .removed (some order) =>
    desk.publishCounted market.symbol (market.cancellationEvents order)
  | _ => desk

/-- Performs an action on a market; orders and cancellations are told of. -/
def perform (desk : Desk) (market : Market) : Action → Except Overflow (Answer × Market × Desk)
  | .trade now order => do
    let (outcome, market, desk) ← desk.place now market order
    return (.outcome outcome, market, desk)
  | .cancel request => do
    let (removed, market, desk) ← desk.cancel market request
    return (.removed removed, market, desk)
  | .halt => .ok (.done, market.halt, desk)
  | .resume => .ok (.done, market.resume, desk)
  | .setReady ready => .ok (.done, market.setReady ready, desk)

def performAll (desk : Desk) (market : Market) :
    List Action → Except Overflow (History × Market × Desk)
  | [] => .ok ([], market, desk)
  | action :: rest => do
    let (answer, market, desk) ← desk.perform market action
    let (history, market, desk) ← desk.performAll market rest
    return ((action, answer) :: history, market, desk)

theorem perform_eq_ok {desk later : Desk} {market after : Market} {action : Action}
    {answer : Answer} (performed : desk.perform market action = .ok (answer, after, later)) :
    market.perform action = .ok (answer, after) ∧ later = desk.tell after answer := by
  cases action with
  | trade now order =>
      simp only [perform, place, bind_eq_ok, return_eq_ok] at performed
      obtain ⟨_, ⟨⟨outcome, changed⟩, traded, rfl⟩, same⟩ := performed
      cases same
      simp [Market.perform, traded, tell]
  | cancel request =>
      simp only [perform, cancel, bind_eq_ok, return_eq_ok] at performed
      obtain ⟨_, ⟨⟨removed, changed⟩, cancelled, told⟩, same⟩ := performed
      cases removed <;> cases told <;> cases same <;> simp [Market.perform, cancelled, tell]
  | halt | resume | setReady =>
      cases performed
      exact ⟨rfl, rfl⟩

theorem perform_of_market (desk : Desk) {market after : Market} {action : Action} {answer : Answer}
    (performed : market.perform action = .ok (answer, after)) :
    desk.perform market action = .ok (answer, after, desk.tell after answer) := by
  cases action with
  | trade now order =>
      simp only [Market.perform, bind_eq_ok, return_eq_ok] at performed
      obtain ⟨⟨outcome, changed⟩, traded, same⟩ := performed
      cases same
      simp only [perform, place, bind_eq_ok, return_eq_ok]
      exact ⟨_, ⟨_, traded, rfl⟩, rfl⟩
  | cancel request =>
      simp only [Market.perform, bind_eq_ok, return_eq_ok] at performed
      obtain ⟨⟨removed, changed⟩, cancelled, same⟩ := performed
      cases same
      simp only [perform, cancel, bind_eq_ok, return_eq_ok]
      cases removed <;> exact ⟨_, ⟨_, cancelled, rfl⟩, rfl⟩
  | halt | resume | setReady =>
      cases performed
      rfl

theorem performAll_of_market (desk : Desk) {market last : Market} {actions : List Action}
    {history : History} (run : market.performAll actions = .ok (history, last)) :
    ∃ after, desk.performAll market actions = .ok (history, last, after) := by
  induction actions generalizing desk market history with
  | nil =>
      cases run
      exact ⟨desk, rfl⟩
  | cons action rest ih =>
      obtain ⟨answer, middle, later, first, others, rfl⟩ := Market.performAll_cons.mp run
      obtain ⟨after, whole⟩ := ih (desk.tell middle answer) others
      refine ⟨after, ?_⟩
      simp only [performAll, bind_eq_ok, return_eq_ok]
      exact ⟨_, desk.perform_of_market first, _, whole, rfl⟩

section Unbounded
variable {desk later : Desk} {sent : Array Event}

theorem publishCounted_unbounded (sink : desk.sink = .channel none sent) (symbol : String)
    (events : List Event) :
    desk.publishCounted symbol events =
      { desk with sink := .channel none (sent ++ events.toArray) } := by
  simp [publishCounted, publish, sink, Sink.publishAll_unbounded]

theorem tell_unbounded (sink : desk.sink = .channel none sent) (market : Market) (answer : Answer) :
    (desk.tell market answer).sink =
      .channel none (sent ++ (answer.events market desk.maxTradeBatch).toArray) := by
  cases answer with
  | outcome outcome =>
      cases outcome with
      | refused reason => simp [tell, record, Answer.events, sink]
      | processed report =>
          rw [tell, record, publishCounted_unbounded (by exact sink)]
          rfl
  | removed order =>
      cases order with
      | none => simp [tell, Answer.events, sink]
      | some order => simp [tell, Answer.events, publishCounted_unbounded sink]
  | done => simp [tell, Answer.events, sink]

end Unbounded

theorem maxTradeBatch_publishCounted (desk : Desk) (symbol : String) (events : List Event) :
    (desk.publishCounted symbol events).maxTradeBatch = desk.maxTradeBatch := by
  unfold publishCounted
  split <;> rename_i same <;> simp only [publish, Prod.mk.injEq] at same <;> rw [← same.2]

theorem maxTradeBatch_tell (desk : Desk) (market : Market) (answer : Answer) :
    (desk.tell market answer).maxTradeBatch = desk.maxTradeBatch := by
  cases answer with
  | outcome outcome => cases outcome <;> simp [tell, record, maxTradeBatch_publishCounted]
  | removed order => cases order <;> simp [tell, maxTradeBatch_publishCounted]
  | done => rfl

/-- What holds at the start and is kept by every action with all it publishes holds
after a run, of everything that was published. -/
theorem performAll_induction {motive : History → List Event → Market → Prop} {batch : Nat}
    (step : ∀ {history : History} {events : List Event} {market later : Market} {action : Action}
      {answer : Answer}, motive history events market →
        market.perform action = .ok (answer, later) →
          motive (history ++ [(action, answer)]) (events ++ answer.events later batch) later)
    (before : History) (published : List Event) {after : History} {market last : Market}
    {desk final : Desk} {sent : Array Event} {actions : List Action}
    (sized : desk.maxTradeBatch = batch)
    (sink : desk.sink = .channel none (sent ++ published.toArray))
    (start : motive before published market)
    (run : desk.performAll market actions = .ok (after, last, final)) :
    ∃ events, final.sink = .channel none (sent ++ events.toArray) ∧
      motive (before ++ after) events last := by
  induction actions generalizing before after published market desk with
  | nil =>
      cases run
      exact ⟨published, sink, by rwa [List.append_nil]⟩
  | cons action rest ih =>
      simp only [performAll, bind_eq_ok, return_eq_ok] at run
      obtain ⟨⟨answer, middle, next⟩, first, ⟨later, _, _⟩, others, same⟩ := run
      cases same
      obtain ⟨performed, rfl⟩ := perform_eq_ok first
      have handed : (desk.tell middle answer).sink =
          .channel none (sent ++ (published ++ answer.events middle batch).toArray) := by
        simp [tell_unbounded sink, sized]
      have whole := ih _ _ ((maxTradeBatch_tell desk middle answer).trans sized) handed
        (step start performed) others
      rwa [List.append_assoc, List.singleton_append] at whole

end Desk

end SpotExchange
