import SpotExchange.Proofs.DepthMirror
import SpotExchange.Proofs.DeskHistory

/-!
Published depth is never stale. A view is another one only where an operation says so,
a pass reports both views that its end can change, and a snapshot is taken once all of
them are as they stay. So whoever keeps the last snapshot of a side has the view.
-/

namespace SpotExchange

namespace DepthView

/-- A view after an operation on it: where none was said to have changed, it is the same. -/
structure Follows (view : DepthView) (changed : Bool) (later : DepthView) : Prop where
  side_eq : later.side = view.side
  same : changed = false → later = view

section Operations
variable {view later : DepthView} {changed : Bool} {price amount : Decimal} {order : Order}

theorem Follows.refl (view : DepthView) : view.Follows false view := ⟨rfl, fun _ => rfl⟩

theorem Follows.withRows (view : DepthView) (rows : List DepthRow) :
    view.Follows true { view with rows } := ⟨rfl, nofun⟩

theorem Follows.trans {middle : DepthView} {more : Bool} (first : view.Follows changed middle)
    (second : middle.Follows more later) : view.Follows (changed || more) later := by
  refine ⟨second.side_eq.trans first.side_eq, ?_⟩
  intro unchanged
  obtain ⟨none, quiet⟩ := Bool.or_eq_false_iff.mp unchanged
  rw [second.same quiet, first.same none]

theorem removeAt_follows (removed : view.removeAt price amount = .ok (changed, later)) :
    view.Follows changed later := by
  simp only [removeAt, bind_eq_ok] at removed
  obtain ⟨rows, -, result⟩ := removed
  cases rows <;> cases result
  · exact .refl view
  · exact .withRows view _

theorem remove_follows (removed : view.remove order amount = .ok (changed, later)) :
    view.Follows changed later := by
  unfold remove at removed
  split_ifs at removed
  · exact removeAt_follows removed
  · cases removed
    exact .refl view

theorem removeMany_follows {deltas : DepthDeltas}
    (removed : view.removeMany deltas = .ok (changed, later)) : view.Follows changed later := by
  induction deltas generalizing view changed with
  | nil =>
      cases removed
      exact .refl _
  | cons delta rest ih =>
      simp only [removeMany, bind_eq_ok, return_eq_ok] at removed
      obtain ⟨⟨first, middle⟩, taken, ⟨more, last⟩, others, same⟩ := removed
      cases same
      exact (removeAt_follows taken).trans (ih others)

theorem insert_follows (inserted : view.insert order = .ok (changed, later)) :
    view.Follows changed later := by
  unfold insert at inserted
  split_ifs at inserted
  · obtain ⟨remaining, -, rest⟩ := (bind_eq_ok _ _ _).mp inserted
    split_ifs at rest
    · cases rest
      exact .refl view
    · obtain ⟨rows, -, result⟩ := (bind_eq_ok _ _ _).mp rest
      cases rows <;> cases result
      · exact .refl view
      · exact .withRows view _
  · cases inserted
    exact .refl view

theorem limit_of_remove (removed : view.remove order amount = .ok (true, later)) :
    order.kind = .limit := by
  unfold remove at removed
  split_ifs at removed with covered
  · simp only [covers, Bool.and_eq_true, decide_eq_true_eq] at covered
    exact covered.1
  · cases removed

end Operations

end DepthView

def Event.snapshot? : Event → Option DepthSnapshot
  | .depth snapshot => some snapshot
  | _ => none

def Event.snapshots (side : Side) (events : List Event) : List DepthSnapshot :=
  (events.filterMap Event.snapshot?).filter fun snapshot => snapshot.side = side

def Event.lastSnapshot? (side : Side) (events : List Event) : Option DepthSnapshot :=
  (Event.snapshots side events).getLast?

theorem Event.snapshots_append (side : Side) (earlier later : List Event) :
    Event.snapshots side (earlier ++ later) =
      Event.snapshots side earlier ++ Event.snapshots side later := by
  simp [Event.snapshots]

namespace Market

/-- Each view is the one of its side. -/
def Labelled (market : Market) : Prop := ∀ side, (market.depth side).side = side

/-- A market before and after an operation: only the views of some sides are other
ones, and each is still the one of its side. -/
structure Shows (market : Market) (changed : List Side) (later : Market) : Prop where
  labelled : later.Labelled
  same : ∀ side, side ∉ changed → later.depth side = market.depth side

section Views
variable {market later : Market} {side : Side}

theorem Shows.of_depths (labelled : market.Labelled) (same : later.depths = market.depths) :
    market.Shows [] later := by
  have views := depth_congr same
  refine ⟨?_, fun side _ => by rw [views]⟩
  unfold Labelled
  rw [views]
  exact labelled

theorem Shows.of_set {view : DepthView} {told : Bool} (labelled : market.Labelled)
    (follows : (market.depth side).Follows told view)
    (set : later.depths = market.depths.set side view) :
    market.Shows (if told then [side] else []) later := by
  obtain ⟨own, other⟩ := depth_of_set set
  constructor
  · refine OrderBook.forall_side side ?_ ?_
    · rw [own, follows.side_eq]
      exact labelled side
    · rw [other]
      exact labelled side.opposite
  · refine OrderBook.forall_side side ?_ fun _ => other
    intro unchanged
    rw [own]
    cases told with
    | true => simp at unchanged
    | false => exact follows.same rfl

theorem Shows.trans {middle : Market} {first second : List Side}
    (one : market.Shows first middle) (two : middle.Shows second later) :
    market.Shows (first ++ second) later := by
  refine ⟨two.labelled, ?_⟩
  intro side unchanged
  rw [List.mem_append, not_or] at unchanged
  rw [two.same side unchanged.2, one.same side unchanged.1]

theorem Shows.mono {more changed : List Side} (shows : market.Shows changed later)
    (fewer : changed ⊆ more) : market.Shows more later :=
  ⟨shows.labelled, fun side unchanged => shows.same side fun member => unchanged (fewer member)⟩

theorem applyDeltas_shows {deltas : DepthDeltas} {changed : List Side} (labelled : market.Labelled)
    (applied : market.applyDeltas side deltas = .ok (changed, later)) :
    market.Shows changed later := by
  simp only [applyDeltas, bind_eq_ok, return_eq_ok] at applied
  obtain ⟨⟨told, view⟩, removed, same⟩ := applied
  cases same
  exact .of_set labelled (DepthView.removeMany_follows removed) rfl

theorem rest_shows {order : Order} {changed : List Side} (labelled : market.Labelled)
    (rested : market.rest order = .ok (changed, later)) : market.Shows changed later := by
  unfold Market.rest at rested
  split at rested
  · simp only [bind_eq_ok, return_eq_ok] at rested
    obtain ⟨⟨told, view⟩, inserted, same⟩ := rested
    cases same
    exact .of_set labelled (DepthView.insert_follows inserted) rfl
  · cases rested
    exact .of_depths labelled rfl

/-- The end of a pass reports every view that it changed. -/
theorem finish_shows {pass : Pass} {report : Report} (labelled : market.Labelled)
    (ended : market.finish pass = .ok (report, later)) :
    market.Shows report.depthChanged later := by
  simp only [finish, bind_eq_ok] at ended
  obtain ⟨⟨opposing, viewed⟩, applied, rest⟩ := ended
  have given := applyDeltas_shows labelled applied
  split_ifs at rest
  · cases rest
    exact given
  · simp only [bind_eq_ok, return_eq_ok] at rest
    obtain ⟨⟨own, placed⟩, rested, same⟩ := rest
    cases same
    exact given.trans (rest_shows given.labelled rested)

theorem depthChanged_of_finish {pass : Pass} {report : Report}
    (ended : market.finish pass = .ok (report, later)) : ∃ changed own : Bool,
      (market.depth pass.taker.side.opposite).removeMany pass.deltas =
          .ok (changed, later.depth pass.taker.side.opposite) ∧
        report.depthChanged = (if changed then [pass.taker.side.opposite] else []) ++
          if own then [pass.taker.side] else [] := by
  obtain ⟨⟨changed, removed⟩, -⟩ := depths_of_finish ended
  simp only [finish, bind_eq_ok] at ended
  obtain ⟨⟨opposing, viewed⟩, applied, rest⟩ := ended
  obtain ⟨⟨told, view⟩, again, same⟩ := (bind_eq_ok _ _ _).mp applied
  obtain rfl : told = changed := congrArg Prod.fst (Except.ok.inj (again.symm.trans removed))
  cases same
  refine ⟨told, ?_⟩
  by_cases done : pass.taker.isCompleted = true
  · rw [if_pos done] at rest
    cases rest
    exact ⟨false, removed, by simp⟩
  · rw [if_neg done] at rest
    obtain ⟨⟨own, placed⟩, rested, ended⟩ := (bind_eq_ok _ _ _).mp rest
    cases ended
    unfold Market.rest at rested
    split at rested
    · obtain ⟨⟨shown, _⟩, -, ended⟩ := (bind_eq_ok _ _ _).mp rested
      cases ended
      exact ⟨shown, removed, rfl⟩
    · cases rested
      exact ⟨false, removed, by simp⟩

end Views

end Market

def Answer.depthChanged : Answer → List Side
  | .outcome (.processed report) => report.depthChanged
  | .removed (some order) => if order.kind = .limit then [order.side] else []
  | _ => []

theorem Answer.snapshots_events (market : Market) (batch : Nat) (answer : Answer) :
    (answer.events market batch).filterMap Event.snapshot? =
      answer.depthChanged.map market.snapshot := by
  cases answer with
  | outcome outcome =>
      cases outcome with
      | refused reason => rfl
      | processed report =>
          have done : (if report.completed = [] then [] else
              [Event.completed market.symbol report.completed]).filterMap Event.snapshot? = [] := by
            split <;> rfl
          simp [events, Market.reportEvents, depthChanged, done, List.filterMap_map,
            Function.comp_def, Event.snapshot?]
  | removed order =>
      cases order with
      | none => rfl
      | some order =>
          cases kind : order.kind <;>
            simp [events, Market.cancellationEvents, Market.cancelledEvents, depthChanged, kind,
              Event.snapshot?, List.filterMap_cons]
  | done => rfl

namespace Market

variable {market later : Market} {side : Side}

theorem perform_shows {action : Action} {answer : Answer}
    (formed : market.book.WellFormed market.symbol) (labelled : market.Labelled)
    (performed : market.perform action = .ok (answer, later)) :
    market.Shows answer.depthChanged later := by
  cases action with
  | trade now order =>
      simp only [perform, bind_eq_ok, return_eq_ok] at performed
      obtain ⟨⟨outcome, after⟩, traded, same⟩ := performed
      cases same
      cases outcome with
      | refused reason =>
          rcases trade_cases traded with ⟨_, -, -, rfl⟩ | ⟨_, _, _, processed, -⟩
          · exact .of_depths labelled rfl
          · cases processed
      | processed report =>
          obtain ⟨_, _, processes⟩ := processes_of_trade formed traded
          obtain ⟨matched, same, ended⟩ := processes.ended
          have before : market.Shows [] matched := .of_depths labelled same
          exact before.trans (finish_shows before.labelled ended)
  | cancel request =>
      simp only [perform, bind_eq_ok, return_eq_ok] at performed
      obtain ⟨⟨removed, after⟩, cancelled, same⟩ := performed
      cases same
      rcases cancel_cases cancelled with ⟨rfl, rfl⟩ | ⟨order, rfl, -, -, -, depths⟩
      · exact .of_depths labelled rfl
      · have kind_eq : order.cancel.kind = order.kind :=
          Order.kind_of_terms (Order.terms_cancel order)
        have side_eq : order.cancel.side = order.side :=
          Order.side_of_terms (Order.terms_cancel order)
        -- whoever waited in a queue is a market order, and no view has lost anything
        rcases depths with ⟨⟨_, waiting⟩, same⟩ | ⟨remaining, changed, view, -, taken, set⟩
        · rw [Answer.depthChanged, if_neg]
          · exact .of_depths labelled same
          · rw [kind_eq, (formed.queues _ order waiting).1]
            decide
        · apply (Shows.of_set labelled (DepthView.remove_follows taken) set).mono
          cases changed with
          | false => simp
          | true => simp [Answer.depthChanged, kind_eq, side_eq, DepthView.limit_of_remove taken]
  | halt | resume | setReady =>
      cases performed
      exact .of_depths labelled rfl

/-- The last snapshot of a side, if there was one, is the view as it is; a side of
which none was published has nothing to show. -/
def Published (market : Market) (events : List Event) (side : Side) : Prop :=
  match Event.lastSnapshot? side events with
  | some snapshot => snapshot = market.snapshot side
  | none => (market.depth side).rows = []

/-- What an answer publishes last of a side is the view as it is then. -/
theorem lastSnapshot?_of_shows {answer : Answer} (batch : Nat)
    (shows : market.Shows answer.depthChanged later) :
    Event.lastSnapshot? side (answer.events later batch) =
      if side ∈ answer.depthChanged then some (later.snapshot side) else none := by
  have own (other : Side) : (later.snapshot other).side = other := shows.labelled other
  have all : Event.snapshots side (answer.events later batch) =
      (answer.depthChanged.filter (· = side)).map later.snapshot := by
    simp [Event.snapshots, Answer.snapshots_events, List.filter_map, Function.comp_def, own]
  rw [Event.lastSnapshot?, all, List.filter_eq]
  by_cases changed : side ∈ answer.depthChanged
  · have count := List.count_pos_iff.mpr changed
    simp [changed, List.getLast?_replicate, count.ne']
  · simp [changed, List.count_eq_zero_of_not_mem]

theorem Published.perform {action : Action} {answer : Answer} {events : List Event} (batch : Nat)
    (published : market.Published events side) (formed : market.book.WellFormed market.symbol)
    (labelled : market.Labelled) (performed : market.perform action = .ok (answer, later)) :
    later.Published (events ++ answer.events later batch) side := by
  have shows := perform_shows formed labelled performed
  have symbol : later.symbol = market.symbol :=
    congrArg Listing.name (wellFormed_perform formed performed).1
  unfold Published at published ⊢
  rw [Event.lastSnapshot?, Event.snapshots_append, List.getLast?_append, ← Event.lastSnapshot?,
    ← Event.lastSnapshot?, lastSnapshot?_of_shows batch shows]
  by_cases changed : side ∈ answer.depthChanged
  · simp [changed]
  · simp only [changed, ↓reduceIte, Option.none_or]
    rw [snapshot, shows.same side changed, symbol]
    exact published

end Market

/-- Published depth is never stale. After every run through a desk whose channel takes
all events, and for each side, the snapshot that was published last is the view as it
is, with its rows and its best and worst price; and a side of which none was published
has an empty view. Every beginning of a run is a run, so this holds all along it. -/
theorem published_depth_current {listing : Listing} {desk after : Desk} {sent : Array Event}
    {actions : List Action} {history : History} {market : Market}
    (sink : desk.sink = .channel none sent)
    (run : desk.performAll (.ofListing listing) actions = .ok (history, market, after)) :
    ∃ published : List Event, after.sink = .channel none (sent ++ published.toArray) ∧
      ∀ side, match Event.lastSnapshot? side published with
        | some snapshot => snapshot = market.snapshot side
        | none => (market.depth side).rows = [] := by
  have whole := Desk.performAll_induction
    (motive := fun _ events market => market.book.WellFormed market.symbol ∧ market.Labelled ∧
      ∀ side, market.Published events side)
    ?_ [] [] rfl (by simpa using sink) ?_ run
  · obtain ⟨published, handed, -, -, current⟩ := whole
    exact ⟨published, handed, current⟩
  · intro _ events before later action answer ⟨formed, labelled, current⟩ performed
    exact ⟨(Market.wellFormed_perform formed performed).2,
      (Market.perform_shows formed labelled performed).labelled,
      fun side => (current side).perform _ formed labelled performed⟩
  · refine ⟨.empty _, ?_, ?_⟩ <;> intro side <;> cases side <;> rfl

theorem sample_published_depth : ∃ history market after published,
    (Desk.onSink .openChannel 100).performAll (.ofListing (.named "coin")) History.sampleActions =
      .ok (history, market, after) ∧
    after.sink = .channel none published.toArray ∧
    ∃ snapshot, Event.lastSnapshot? .sell published = some snapshot ∧
      snapshot = market.snapshot .sell ∧
      (snapshot.rows.map fun row => (row.price.coefficient, row.amount.coefficient)) =
        [(100, 5)] := by
  have run : ∃ result, Market.performAll (.ofListing (.named "coin")) History.sampleActions =
        .ok result ∧
      ((result.2.depth .sell).rows.map fun row =>
        (row.price.coefficient, row.amount.coefficient)) = [(100, 5)] :=
    ⟨_, rfl, by decide +kernel⟩
  obtain ⟨⟨history, market⟩, ran, rows⟩ := run
  obtain ⟨after, told⟩ := Desk.performAll_of_market (.onSink .openChannel 100) ran
  obtain ⟨published, handed, current⟩ := published_depth_current rfl told
  rw [Array.empty_append] at handed
  have last := current .sell
  split at last
  · rename_i snapshot found
    exact ⟨history, market, after, published, told, handed, snapshot, found, last, last ▸ rows⟩
  · rw [last] at rows
    cases rows

end SpotExchange
