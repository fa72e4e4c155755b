import SpotExchange.Proofs.Alike
import SpotExchange.Proofs.History

/-!
Trailing zeros never matter. Two markets that are alike, asked for alike things, give
alike answers and stay alike; so two runs of orders and cancellations that differ in the
places of decimals only differ in nothing else at any point.
-/

namespace SpotExchange

def Both {α β γ δ : Type} (left : α → γ → Prop) (right : β → δ → Prop) (a : α × β) (b : γ × δ) :
    Prop := left a.1 b.1 ∧ right a.2 b.2

section Traversal
variable {α β γ δ : Type} {related : α → β → Prop} {result : γ → δ → Prop}

theorem foldlM_alike {items : List α} {others : List β} {step : γ → α → Except Overflow γ}
    {step' : δ → β → Except Overflow δ} (alike : List.Forall₂ related items others)
    (steps : ∀ {start start' item item'}, result start start' → related item item' →
      Agree result (step start item) (step' start' item')) {start : γ} {start' : δ}
    (same : result start start') :
    Agree result (items.foldlM step start) (others.foldlM step' start') := by
  induction alike generalizing start start' with
  | nil => exact .ok same
  | cons first _ ih =>
      rw [List.foldlM_cons, List.foldlM_cons]
      exact .bind (steps same first) ih

theorem mapM_alike {items : List α} {others : List β} {image : α → Except Overflow γ}
    {image' : β → Except Overflow δ} (alike : List.Forall₂ related items others)
    (images : ∀ {item item'}, related item item' → Agree result (image item) (image' item')) :
    Agree (List.Forall₂ result) (items.mapM image) (others.mapM image') := by
  induction alike with
  | nil => exact .ok .nil
  | cons first _ ih =>
      rw [List.mapM_cons, List.mapM_cons]
      exact .bind (images first) fun one => .bind ih fun rest => .ok (.cons one rest)

end Traversal

theorem Decimal.sum_alike {values values' : List Decimal}
    (alike : List.Forall₂ (· ≈ ·) values values') :
    Agree (· ≈ ·) (Decimal.sum values) (Decimal.sum values') :=
  foldlM_alike alike (fun start item => Decimal.add_alike start item) Decimal.equiv_rfl

theorem OrderQueue.Alike.totalAmount {a b : OrderQueue} (alike : a.Alike b) :
    Agree (· ≈ ·) (OrderQueue.totalAmount a) (OrderQueue.totalAmount b) :=
  Decimal.sum_alike (List.rel_map (fun _ _ same => Order.Alike.amount same) alike)

theorem proRata_alike {amount part total amount' part' total' : Decimal}
    (amounts : amount ≈ amount') (parts : part ≈ part') (totals : total ≈ total')
    (positive : 0 < total) :
    Agree (· ≈ ·) (proRata amount part total) (proRata amount' part' total') := by
  have direct : Agree (· ≈ ·) (do (← amount.mul part).div total)
      (do (← amount'.mul part').div total') :=
    .bind (Decimal.mul_alike amounts parts) fun product =>
      Decimal.div_alike product totals positive
  unfold proRata
  generalize (do (← amount.mul part).div total : Except Overflow Decimal) = first at direct ⊢
  generalize (do (← amount'.mul part').div total' : Except Overflow Decimal) = first' at direct ⊢
  cases direct with
  | ok share => exact .ok share
  | error cause =>
      exact .bind (Decimal.div_alike parts totals positive) fun quotient =>
        Decimal.mul_alike amounts quotient

namespace Pass

structure Alike (now now' : Instant) (a b : Pass) : Prop where
  taker : a.taker.Alike b.taker
  trades : List.Forall₂ (Trade.Alike now now') a.trades.toList b.trades.toList
  completed : OrderQueue.Alike a.completed.toList b.completed.toList
  deltas : a.deltas.Alike b.deltas

section Alike
variable {now now' : Instant} {a b : Pass} {maker maker' : Order} {queue queue' : OrderQueue}
  {ladder ladder' : Ladder} {total total' price price' : Decimal}

theorem Alike.start {taker taker' : Order} (same : taker.Alike taker') :
    Alike now now' (Pass.start taker) (Pass.start taker') := ⟨same, .nil, .nil, .nil⟩

theorem Alike.complete (alike : Alike now now' a b) (done : queue.Alike queue') :
    Alike now now' (a.complete queue) (b.complete queue') := by
  have reported := List.rel_append alike.completed done
  refine { alike with completed := ?_ }
  simpa [Pass.complete, OrderQueue.Alike] using reported

theorem Alike.record (alike : Alike now now' a b) {taker taker' : Order} {trade trade' : Trade}
    {deltas deltas' : DepthDeltas} (takers : taker.Alike taker')
    (trades : Trade.Alike now now' trade trade') (taken : deltas.Alike deltas') :
    Alike now now' ⟨taker, a.trades.push trade, a.completed, deltas⟩
      ⟨taker', b.trades.push trade', b.completed, deltas'⟩ := by
  refine ⟨takers, ?_, alike.completed, taken⟩
  rw [Array.toList_push, Array.toList_push]
  exact List.rel_append alike.trades (.cons trades .nil)

theorem Alike.settle (alike : Alike now now' a b) (same : maker.Alike maker')
    {amount money amount' money' : Decimal} (prices : price ≈ price') (amounts : amount ≈ amount')
    (moneys : money ≈ money') :
    Agree (Both (Alike now now') Order.Alike) (a.settle now maker price amount money)
      (b.settle now' maker' price' amount' money') := by
  refine .bind (alike.taker.fill amounts moneys) fun takers => ?_
  refine .bind (same.fill amounts moneys) fun makers => ?_
  have trades := Order.Alike.between now now' takers makers prices amounts moneys
  refine .ite (by rw [makers.kind]) (fun _ => ?_) (fun _ => ?_)
  · exact .bind (alike.deltas.add makers.price amounts) fun taken =>
      .ok ⟨alike.record takers trades taken, makers⟩
  · exact .ok ⟨alike.record takers trades alike.deltas, makers⟩

theorem dealPrice_alike {taker taker' : Order} (takers : taker.Alike taker')
    (makers : maker.Alike maker') : dealPrice taker maker ≈ dealPrice taker' maker' := by
  rw [dealPrice, dealPrice, ← makers.kind]
  cases maker.kind
  · exact makers.price
  · exact takers.price

variable (listing : Listing)

theorem Alike.meet (alike : Alike now now' a b) (same : maker.Alike maker') :
    Agree (Both (Alike now now') Order.Alike) (a.meet listing now maker)
      (b.meet listing now' maker') := by
  have zero : (0 : Decimal) ≈ 0 := Decimal.equiv_rfl
  have prices := dealPrice_alike alike.taker same
  refine .ite (Decimal.le_congr prices zero) (fun _ => .ok ⟨alike, same⟩) (fun _ => ?_)
  refine .bind (alike.taker.availableAt prices _) fun need => ?_
  refine .bind (same.availableAt prices _) fun available => ?_
  have amounts := Decimal.min_alike need available
  refine .ite (Decimal.le_congr amounts zero) (fun _ => .ok ⟨alike, same⟩) (fun _ => ?_)
  exact .bind (Decimal.mul_alike amounts prices) fun product =>
    alike.settle same prices amounts (Decimal.truncate_alike product listing.quoteScale)

theorem Alike.sweepQueue (alike : Alike now now' a b) (same : queue.Alike queue') :
    Agree (Both (Alike now now') OrderQueue.Alike) (a.sweepQueue listing now queue)
      (b.sweepQueue listing now' queue') := by
  induction same generalizing a b with
  | nil => exact .ok ⟨alike, .nil⟩
  | @cons maker maker' rest rest' first others ih =>
      refine .bind (alike.meet listing first) fun {met met'} after => ?_
      -- each test of the walk reads a maker or a taker that is alike on both sides
      obtain ⟨passes, makers⟩ := after
      refine .ite makers.done_iff (fun _ => ?_) (fun _ => ?_)
      · have done := passes.complete (.cons makers .nil)
        exact .ite done.taker.done_iff (fun _ => .ok ⟨done, others⟩) (fun _ => ih done)
      · refine .ite passes.taker.done_iff (fun _ => .ok ⟨passes, .cons makers others⟩) (fun _ => ?_)
        exact .bind (ih passes) fun swept => .ok ⟨swept.1, .cons makers swept.2⟩

theorem reaches_alike {taker taker' : Order} (takers : taker.Alike taker')
    {limit limit' : Option Decimal} (limits : Option.Rel (· ≈ ·) limit limit')
    {level level' : PriceLevel} (levels : level.Alike level') :
    reaches taker limit level = reaches taker' limit' level' := by
  cases limits with
  | none => rfl
  | some near =>
      simp only [reaches, takers.side]
      exact Side.crosses_alike _ near levels.price

theorem Alike.sweepLadder (alike : Alike now now' a b) {limit limit' : Option Decimal}
    (limits : Option.Rel (· ≈ ·) limit limit') (same : ladder.Alike ladder') :
    Agree (Both (Alike now now') Ladder.Alike) (a.sweepLadder listing now limit ladder)
      (b.sweepLadder listing now' limit' ladder') := by
  induction same generalizing a b with
  | nil => exact .ok ⟨alike, .nil⟩
  | @cons level level' rest rest' first others ih =>
      refine .ite (by rw [reaches_alike alike.taker limits first]) (fun _ => ?_)
        (fun _ => .ok ⟨alike, .cons first others⟩)
      refine .bind (alike.sweepQueue listing first.orders) fun {swept swept'} after => ?_
      obtain ⟨passes, orders⟩ := after
      refine .ite (by rw [isEmpty_forall₂ orders]) (fun _ => ?_) (fun _ => ?_)
      · exact .ok ⟨passes, .cons ⟨first.price, orders⟩ others⟩
      · exact .ite passes.taker.done_iff (fun _ => .ok ⟨passes, others⟩) (fun _ => ih passes)

theorem Alike.allot (alike : Alike now now' a b) (same : maker.Alike maker')
    (totals : total ≈ total') (positive : 0 < total) (prices : price ≈ price') :
    Agree (Both (Alike now now') Order.Alike) (a.allot listing now total price maker)
      (b.allot listing now' total' price' maker') := by
  have zero : (0 : Decimal) ≈ 0 := Decimal.equiv_rfl
  refine .bind (proRata_alike alike.taker.amount same.amount totals positive) fun share => ?_
  refine .bind (same.availableAt prices _) fun available => ?_
  refine .bind (alike.taker.availableAt prices _) fun need => ?_
  have amounts := Decimal.min_alike
    (Decimal.min_alike (Decimal.truncate_alike share listing.baseScale) available) need
  refine .ite (Decimal.le_congr amounts zero) (fun _ => .ok ⟨alike, same⟩) (fun _ => ?_)
  exact .bind (Decimal.mul_alike amounts prices) fun product =>
    alike.settle same prices amounts (Decimal.truncate_alike product listing.quoteScale)

theorem Alike.allotQueue (alike : Alike now now' a b) (same : queue.Alike queue')
    (totals : total ≈ total') (positive : 0 < total) (prices : price ≈ price') :
    Agree (Both (Alike now now') OrderQueue.Alike) (a.allotQueue listing now total price queue)
      (b.allotQueue listing now' total' price' queue') := by
  induction same generalizing a b with
  | nil => exact .ok ⟨alike, .nil⟩
  | @cons maker maker' rest rest' first others ih =>
      refine .ite alike.taker.done_iff (fun _ => .ok ⟨alike, .cons first others⟩) (fun _ => ?_)
      refine .bind (alike.allot listing first totals positive prices) fun given => ?_
      exact .bind (ih given.1) fun later => .ok ⟨later.1, .cons given.2 later.2⟩

theorem Alike.allotLadder (alike : Alike now now' a b) (same : ladder.Alike ladder')
    (totals : total ≈ total') (positive : 0 < total) :
    Agree (Both (Alike now now') Ladder.Alike) (a.allotLadder listing now total ladder)
      (b.allotLadder listing now' total' ladder') := by
  induction same generalizing a b with
  | nil => exact .ok ⟨alike, .nil⟩
  | @cons level level' rest rest' first others ih =>
      refine .bind (alike.allotQueue listing first.orders totals positive first.price)
        fun given => ?_
      obtain ⟨done, left⟩ := given.2.separate
      have told := given.1.complete done
      refine .ite told.taker.done_iff (fun _ => .ok ⟨told, Ladder.Alike.keep others first left⟩)
        (fun _ => ?_)
      exact .bind (ih told) fun later => .ok ⟨later.1, Ladder.Alike.keep later.2 first left⟩

theorem Alike.apportion (alike : Alike now now' a b) (same : ladder.Alike ladder') :
    Agree (Both (Alike now now') Ladder.Alike) (a.apportion listing now ladder)
      (b.apportion listing now' ladder') := by
  -- both takers are of one side, so they cross the same levels
  obtain ⟨crossing, beyond⟩ := same.divide a.taker.side alike.taker.price
  nth_rewrite 2 [alike.taker.side] at crossing beyond
  refine .bind (mapM_alike crossing fun level => level.orders.totalAmount) fun amounts => ?_
  refine .bind (Decimal.sum_alike amounts) fun totals => ?_
  refine .ite (Decimal.le_congr totals Decimal.equiv_rfl) (fun _ => .ok ⟨alike, same⟩)
    (fun positive => ?_)
  rw [Decimal.not_nonpos_iff, ← Decimal.pos_iff] at positive
  exact .bind (alike.allotLadder listing crossing totals positive) fun given =>
    .ok ⟨given.1, List.rel_append given.2 beyond⟩

end Alike

end Pass

structure OrderBook.Alike (a b : OrderBook) : Prop where
  ladders : ∀ side, (a.ladder side).Alike (b.ladder side)
  queues : ∀ side, (a.queue side).Alike (b.queue side)

structure CancelRequest.Alike (a b : CancelRequest) : Prop where
  symbol : a.symbol = b.symbol
  number : a.number = b.number
  side : a.side = b.side
  kind : a.kind = b.kind
  price : a.price ≈ b.price

structure Market.Alike (a b : Market) : Prop where
  listing : a.listing = b.listing
  book : a.book.Alike b.book
  depths : ∀ side, (a.depth side).Alike (b.depth side)
  halted : a.halted = b.halted
  ready : a.ready = b.ready

structure Report.Alike (now now' : Instant) (a b : Report) : Prop where
  trades : List.Forall₂ (Trade.Alike now now') a.trades b.trades
  completed : OrderQueue.Alike a.completed b.completed
  resting : Option.Rel Order.Alike a.resting b.resting
  depthChanged : a.depthChanged = b.depthChanged

inductive Outcome.Alike (now now' : Instant) : Outcome → Outcome → Prop
  | refused (reason : Refusal) : Alike now now' (.refused reason) (.refused reason)
  | processed {report report' : Report} (same : report.Alike now now' report') :
      Alike now now' (.processed report) (.processed report')

namespace OrderBook

section Alike
variable {a b : OrderBook} (alike : a.Alike b) (side : Side)
include alike

theorem Alike.setLadder {ladder ladder' : Ladder} (same : ladder.Alike ladder') :
    (a.setLadder side ladder).Alike (b.setLadder side ladder') where
  ladders := by
    refine forall_side side ?_ ?_
    · rwa [ladder_setLadder, ladder_setLadder]
    · rw [ladder_setLadder_opposite, ladder_setLadder_opposite]
      exact alike.ladders _
  queues := alike.queues

theorem Alike.setQueue {queue queue' : OrderQueue} (same : queue.Alike queue') :
    (a.setQueue side queue).Alike (b.setQueue side queue') where
  ladders := alike.ladders
  queues := by
    refine forall_side side ?_ ?_
    · rwa [queue_setQueue, queue_setQueue]
    · rw [queue_setQueue_opposite, queue_setQueue_opposite]
      exact alike.queues _

omit side in
theorem Alike.addLimit {order order' : Order} (same : order.Alike order') :
    (a.addLimit order).Alike (b.addLimit order') := by
  rw [OrderBook.addLimit, OrderBook.addLimit, ← same.side]
  exact alike.setLadder _ ((alike.ladders _).append _ same)

omit side in
theorem Alike.addMarket {order order' : Order} (same : order.Alike order') :
    (a.addMarket order).Alike (b.addMarket order') := by
  rw [OrderBook.addMarket, OrderBook.addMarket, ← same.side]
  exact alike.setQueue _ (List.rel_append (alike.queues _) (.cons same .nil))

theorem Alike.removeLimit? {price price' : Decimal} (near : price ≈ price') (number : String) :
    Option.Rel (Both Order.Alike OrderBook.Alike) (a.removeLimit? side price number)
      (b.removeLimit? side price' number) :=
  rel_map ((alike.ladders side).extract? near number) fun found =>
    ⟨found.1, alike.setLadder side found.2⟩

theorem Alike.removeMarket? (number : String) :
    Option.Rel (Both Order.Alike OrderBook.Alike) (a.removeMarket? side number)
      (b.removeMarket? side number) :=
  rel_map ((alike.queues side).extract? number) fun found =>
    ⟨found.1, alike.setQueue side found.2⟩

end Alike

end OrderBook

namespace Market

section Alike
variable {now now' : Instant} {a b : Market} (alike : a.Alike b) {order order' : Order}
  {pass pass' : Pass}
include alike

theorem Alike.setDepth (side : Side) {view view' : DepthView} (same : view.Alike view') :
    (a.setDepth side view).Alike (b.setDepth side view') := by
  refine { alike with depths := OrderBook.forall_side side ?_ ?_ }
  · simpa [Market.depth, Market.setDepth] using same
  · simpa [Market.depth, Market.setDepth] using alike.depths side.opposite

theorem Alike.withBook {book book' : OrderBook} (same : book.Alike book') :
    Alike { a with book } { b with book := book' } := { alike with book := same }

theorem Alike.refusal? (same : order.Alike order') :
    Agree Eq (a.refusal? order) (b.refusal? order') := by
  have zero : (0 : Decimal) ≈ 0 := Decimal.equiv_rfl
  refine .ite (by rw [alike.halted]) (fun _ => .ok rfl) (fun _ => ?_)
  refine .ite (by rw [Market.symbol, Market.symbol, alike.listing, same.symbol])
    (fun _ => .ok rfl) (fun _ => ?_)
  refine .ite (Decimal.le_congr same.amount zero) (fun _ => .ok rfl) (fun _ => ?_)
  refine .bind same.remaining fun left => ?_
  refine .ite (by rw [Decimal.le_congr left zero, same.isCompleted]) (fun _ => .ok rfl)
    (fun _ => ?_)
  exact .ite (by rw [same.kind, Decimal.le_congr same.price zero]) (fun _ => .ok rfl)
    (fun _ => .ok rfl)

theorem Alike.matchApportioned (passes : Pass.Alike now now' pass pass') :
    Agree (Both (Pass.Alike now now') Market.Alike) (a.matchApportioned now pass)
      (b.matchApportioned now' pass') := by
  have apportions : a.listing.apportions pass.taker = b.listing.apportions pass'.taker := by
    simp only [Listing.apportions, IssuanceWindow.appliesTo, alike.listing, passes.taker.kind,
      passes.taker.side, passes.taker.createdAt]
  refine .ite (by rw [apportions]) (fun _ => ?_) (fun _ => .ok ⟨passes, alike⟩)
  have shared := passes.apportion a.listing (alike.book.ladders pass.taker.side.opposite)
  nth_rewrite 2 [alike.listing] at shared
  rw [← passes.taker.side]
  exact .bind shared fun given => .ok ⟨given.1, alike.withBook (alike.book.setLadder _ given.2)⟩

theorem Alike.matchLadder {limit limit' : Option Decimal}
    (limits : Option.Rel (· ≈ ·) limit limit') (passes : Pass.Alike now now' pass pass') :
    Agree (Both (Pass.Alike now now') Market.Alike) (a.matchLadder now limit pass)
      (b.matchLadder now' limit' pass') := by
  refine .ite passes.taker.done_iff (fun _ => .ok ⟨passes, alike⟩) (fun _ => ?_)
  have walk := passes.sweepLadder a.listing limits (alike.book.ladders pass.taker.side.opposite)
  nth_rewrite 2 [alike.listing] at walk
  rw [← passes.taker.side]
  exact .bind walk fun swept => .ok ⟨swept.1, alike.withBook (alike.book.setLadder _ swept.2)⟩

theorem Alike.matchQueue (passes : Pass.Alike now now' pass pass') :
    Agree (Both (Pass.Alike now now') Market.Alike) (a.matchQueue now pass)
      (b.matchQueue now' pass') := by
  refine .ite passes.taker.done_iff (fun _ => .ok ⟨passes, alike⟩) (fun _ => ?_)
  have walk := passes.sweepQueue a.listing (alike.book.queues pass.taker.side.opposite)
  nth_rewrite 2 [alike.listing] at walk
  rw [← passes.taker.side]
  exact .bind walk fun swept => .ok ⟨swept.1, alike.withBook (alike.book.setQueue _ swept.2)⟩

theorem Alike.matchOrder (same : order.Alike order') :
    Agree (Both (Pass.Alike now now') Market.Alike) (a.matchOrder now order)
      (b.matchOrder now' order') := by
  have start : Pass.Alike now now' (.start order) (.start order') := .start same
  unfold Market.matchOrder
  rw [← same.kind]
  cases order.kind with
  | market => exact alike.matchLadder .none start
  | limit =>
      refine .bind (alike.matchApportioned start) fun shared => ?_
      refine .bind (shared.2.matchLadder (.some same.price) shared.1) fun swept => ?_
      exact swept.2.matchQueue swept.1

theorem Alike.applyDeltas (side : Side) {deltas deltas' : DepthDeltas}
    (taken : deltas.Alike deltas') :
    Agree (Both Eq Market.Alike) (a.applyDeltas side deltas) (b.applyDeltas side deltas') := by
  refine .bind ((alike.depths side).removeMany taken) fun {change change'} changes => ?_
  obtain ⟨changed, views⟩ := changes
  exact .ok ⟨by rw [changed], alike.setDepth side views⟩

theorem Alike.rest (same : order.Alike order') :
    Agree (Both Eq Market.Alike) (a.rest order) (b.rest order') := by
  unfold Market.rest
  rw [← same.kind, ← same.side]
  cases order.kind with
  | market => exact .ok ⟨rfl, alike.withBook (alike.book.addMarket same)⟩
  | limit =>
      refine .bind ((alike.depths _).insert same) fun {change change'} changes => ?_
      obtain ⟨changed, views⟩ := changes
      have viewed := alike.setDepth order.side views
      exact .ok ⟨by rw [changed], viewed.withBook (viewed.book.addLimit same)⟩

theorem Alike.finish (passes : Pass.Alike now now' pass pass') :
    Agree (Both (Report.Alike now now') Market.Alike) (a.finish pass) (b.finish pass') := by
  unfold Market.finish
  rw [passes.taker.side]
  refine .bind (alike.applyDeltas _ passes.deltas) fun given => ?_
  refine .ite passes.taker.done_iff (fun _ => ?_) (fun _ => ?_)
  · exact .ok ⟨⟨passes.trades, List.rel_append passes.completed (.cons passes.taker .nil), .none,
      given.1⟩, given.2⟩
  · refine .bind (given.2.rest passes.taker) fun own => ?_
    exact .ok ⟨⟨passes.trades, passes.completed, .some passes.taker,
      congrArg₂ _ given.1 own.1⟩, own.2⟩

theorem Alike.trade (same : order.Alike order') :
    Agree (Both (Outcome.Alike now now') Market.Alike) (a.trade now order)
      (b.trade now' order') := by
  refine .bind (alike.refusal? same) fun {refusal refusal'} refused => ?_
  subst refused
  cases refusal with
  | some reason => exact .ok ⟨.refused reason, alike⟩
  | none =>
      refine .bind (alike.matchOrder same) fun matched => ?_
      exact .bind (matched.2.finish matched.1) fun ended => .ok ⟨.processed ended.1, ended.2⟩

theorem Alike.cancel {request request' : CancelRequest} (same : request.Alike request') :
    Agree (Both (Option.Rel Order.Alike) Market.Alike) (a.cancel request) (b.cancel request') := by
  unfold Market.cancel
  refine .ite (by rw [Market.symbol, Market.symbol, alike.listing, same.symbol])
    (fun _ => .ok ⟨.none, alike⟩) (fun _ => ?_)
  rw [← same.kind, ← same.side, ← same.number]
  cases request.kind with
  | market =>
      have found := alike.book.removeMarket? request.side request.number
      generalize a.book.removeMarket? request.side request.number = left at found ⊢
      generalize b.book.removeMarket? request.side request.number = right at found ⊢
      cases found with
      | none => exact .ok ⟨.none, alike⟩
      | some both => exact .ok ⟨.some both.1.cancel, alike.withBook both.2⟩
  | limit =>
      have found := alike.book.removeLimit? request.side same.price request.number
      generalize a.book.removeLimit? request.side request.price request.number = left at found ⊢
      generalize b.book.removeLimit? request.side request'.price request.number = right at found ⊢
      cases found with
      | none => exact .ok ⟨.none, alike⟩
      | some both =>
          obtain ⟨orders, books⟩ := both
          refine .bind orders.remaining fun left => ?_
          rw [← orders.side]
          exact .bind ((alike.depths _).remove orders left) fun change =>
            .ok ⟨.some orders.cancel, (alike.withBook books).setDepth _ change.2⟩

end Alike

end Market

/-- Alike things that two markets are asked for, be it at different times. -/
inductive Action.Alike : Action → Action → Prop
  | trade (now now' : Instant) {order order' : Order} (same : order.Alike order') :
      Alike (.trade now order) (.trade now' order')
  | cancel {request request' : CancelRequest} (same : request.Alike request') :
      Alike (.cancel request) (.cancel request')
  | halt : Alike .halt .halt
  | resume : Alike .resume .resume
  | setReady (ready : Bool) : Alike (.setReady ready) (.setReady ready)

inductive History.AlikeEntry : Action × Answer → Action × Answer → Prop
  | trade (now now' : Instant) {order order' : Order} {outcome outcome' : Outcome}
      (same : order.Alike order') (outcomes : outcome.Alike now now' outcome') :
      AlikeEntry (.trade now order, .outcome outcome) (.trade now' order', .outcome outcome')
  | cancel {request request' : CancelRequest} {found found' : Option Order}
      (same : request.Alike request') (removed : Option.Rel Order.Alike found found') :
      AlikeEntry (.cancel request, .removed found) (.cancel request', .removed found')
  | halt : AlikeEntry (.halt, .done) (.halt, .done)
  | resume : AlikeEntry (.resume, .done) (.resume, .done)
  | setReady (ready : Bool) : AlikeEntry (.setReady ready, .done) (.setReady ready, .done)

namespace Market

section Runs
variable {a b : Market}

theorem Alike.start (listing : Listing) : (ofListing listing).Alike (ofListing listing) where
  listing := rfl
  book := ⟨by intro side; cases side <;> exact .nil, by intro side; cases side <;> exact .nil⟩
  depths := by
    intro side
    cases side <;> exact ⟨rfl, rfl, .nil⟩
  halted := rfl
  ready := rfl

theorem Alike.perform (alike : a.Alike b) {action action' : Action} (same : action.Alike action') :
    Agree (fun one two => History.AlikeEntry (action, one.1) (action', two.1) ∧ one.2.Alike two.2)
      (a.perform action) (b.perform action') := by
  cases same with
  | trade now now' orders =>
      exact .bind (alike.trade orders) fun traded => .ok ⟨.trade now now' orders traded.1, traded.2⟩
  | cancel requests =>
      exact .bind (alike.cancel requests) fun found => .ok ⟨.cancel requests found.1, found.2⟩
  | halt => exact .ok ⟨.halt, { alike with halted := rfl }⟩
  | resume => exact .ok ⟨.resume, { alike with halted := rfl }⟩
  | setReady ready => exact .ok ⟨.setReady ready, { alike with ready := rfl }⟩

theorem Alike.performAll (alike : a.Alike b) {actions actions' : List Action}
    (same : List.Forall₂ Action.Alike actions actions') :
    Agree (Both (List.Forall₂ History.AlikeEntry) Market.Alike) (a.performAll actions)
      (b.performAll actions') := by
  induction same generalizing a b with
  | nil => exact .ok ⟨.nil, alike⟩
  | cons first _ ih =>
      refine .bind (alike.perform first) fun answered => ?_
      exact .bind (ih answered.2) fun later => .ok ⟨.cons answered.1 later.1, later.2⟩

theorem performAll_take {market last : Market} {actions : List Action} {history : History}
    (run : market.performAll actions = .ok (history, last)) (count : Nat) :
    ∃ middle, market.performAll (actions.take count) = .ok (history.take count, middle) := by
  induction count generalizing market actions history with
  | zero => exact ⟨market, by rw [List.take_zero, List.take_zero]; rfl⟩
  | succ count ih =>
      cases actions with
      | nil =>
          cases run
          exact ⟨_, rfl⟩
      | cons action rest =>
          obtain ⟨answer, next, later, first, others, rfl⟩ := performAll_cons.mp run
          obtain ⟨middle, before⟩ := ih others
          exact ⟨middle, performAll_cons.mpr ⟨answer, next, _, first, before, rfl⟩⟩

end Runs

end Market

/-- Two runs of actions that differ only in the places of decimals, and in the times of
trading: the second one overflows nowhere if the first one does not, both give alike
answers, and after any number of steps both markets are alike. -/
theorem trailing_zeros_never_matter {listing : Listing} {actions actions' : List Action}
    (alike : List.Forall₂ Action.Alike actions actions') {history : History} {market : Market}
    (run : Market.replay listing actions = .ok (history, market)) :
    ∃ history' market', Market.replay listing actions' = .ok (history', market') ∧
      List.Forall₂ History.AlikeEntry history history' ∧ market.Alike market' ∧
      ∀ count, ∃ middle middle',
        Market.replay listing (actions.take count) = .ok (history.take count, middle) ∧
          Market.replay listing (actions'.take count) = .ok (history'.take count, middle') ∧
          middle.Alike middle' := by
  have start := Market.Alike.start listing
  obtain ⟨⟨history', market'⟩, run', entries, markets⟩ := (start.performAll alike).of_ok run
  refine ⟨history', market', run', entries, markets, ?_⟩
  intro count
  obtain ⟨middle, before⟩ := Market.performAll_take run count
  obtain ⟨middle', before'⟩ := Market.performAll_take run' count
  refine ⟨middle, middle', before, before', ?_⟩
  obtain ⟨_, again, -, same⟩ := (start.performAll (List.forall₂_take count alike)).of_ok before
  obtain rfl := Except.ok.inj (before'.symm.trans again)
  exact same

theorem sample_trailing_zeros : ∃ history market history' market',
    Market.replay (.named "coin")
        (History.buyActions ["ask"] (.ofParts 5 1) (.ofParts 3 0) (.ofParts 2 0)) =
      .ok (history, market) ∧
    Market.replay (.named "coin")
        (History.buyActions ["ask"] (.ofParts 50 2) (.ofParts 300 2) (.ofParts 20 1)) =
      .ok (history', market') ∧
    (History.trades history).map (fun trade => trade.amount) = [.ofParts 3 0] ∧
    (History.trades history').map (fun trade => trade.amount) = [.ofParts 300 2] ∧
    List.Forall₂ History.AlikeEntry history history' ∧ market.Alike market' := by
  have alike : List.Forall₂ Action.Alike
      (History.buyActions ["ask"] (.ofParts 5 1) (.ofParts 3 0) (.ofParts 2 0))
      (History.buyActions ["ask"] (.ofParts 50 2) (.ofParts 300 2) (.ofParts 20 1)) := by
    refine .cons (.trade _ _ ?_) (.cons (.trade _ _ ?_) .nil) <;>
      constructor <;> rfl
  have runs : ∃ history market history' market',
      Market.replay (.named "coin")
          (History.buyActions ["ask"] (.ofParts 5 1) (.ofParts 3 0) (.ofParts 2 0)) =
        .ok (history, market) ∧
      Market.replay (.named "coin")
          (History.buyActions ["ask"] (.ofParts 50 2) (.ofParts 300 2) (.ofParts 20 1)) =
        .ok (history', market') ∧
      (History.trades history).map (fun trade => trade.amount) = [.ofParts 3 0] ∧
      (History.trades history').map (fun trade => trade.amount) = [.ofParts 300 2] :=
    ⟨_, _, _, _, rfl, rfl, by decide +kernel, by decide +kernel⟩
  obtain ⟨history, market, history', market', ran, ran', trades, trades'⟩ := runs
  refine ⟨history, market, history', market', ran, ran', trades, trades', ?_⟩
  obtain ⟨_, _, again, entries, markets, -⟩ := trailing_zeros_never_matter alike ran
  cases ran'.symm.trans again
  exact ⟨entries, markets⟩

end SpotExchange
