import SpotExchange.Proofs.PublishedDepth

/-!
The order of depth views. Whatever is added to a view and taken off it, be it less than
nothing or more than there is, its rows stand by price, the best one first and each price
once; every row shows something, and there are no more rows than the view has room for.
An operation that tells of no change has made none.
-/

namespace SpotExchange

namespace DepthView

inductive Change where
  | insert (order : Order)
  | remove (order : Order) (amount : Decimal)
  | removeAt (price amount : Decimal)
  | removeMany (deltas : List (Decimal × Decimal))

def apply (view : DepthView) : Change → Except Overflow (Bool × DepthView)
  | .insert order => view.insert order
  | .remove order amount => view.remove order amount
  | .removeAt price amount => view.removeAt price amount
  | .removeMany deltas => view.removeMany deltas

def applyAll (view : DepthView) : List Change → Except Overflow DepthView
  | [] => .ok view
  | change :: rest => do
    let (_, later) ← view.apply change
    later.applyAll rest

/-- How taking an amount off a price ends. Without a row at the price nothing changes; else
the row shows that much less, and goes when nothing positive is left of it. -/
inductive Lowered (price amount : Decimal) (view : DepthView) : Bool → DepthView → Prop
  | absent (apart : ∀ row ∈ view.rows, ¬ row.price ≈ price) : Lowered price amount view false view
  | kept {before after : List DepthRow} {row : DepthRow} {left : Decimal}
      (rows : view.rows = before ++ row :: after) (here : row.price ≈ price)
      (subtracted : row.amount.sub amount = .ok left) (more : 0 < left) :
      Lowered price amount view true
        { view with rows := before ++ { row with amount := left } :: after }
  | dropped {before after : List DepthRow} {row : DepthRow} {left : Decimal}
      (rows : view.rows = before ++ row :: after) (here : row.price ≈ price)
      (subtracted : row.amount.sub amount = .ok left) (nothing : left ≤ 0) :
      Lowered price amount view true { view with rows := before ++ after }

/-- A view of a side in good order. -/
structure Ranked (side : Side) (maxDepth : Nat) (view : DepthView) : Prop where
  side_eq : view.side = side
  maxDepth_eq : view.maxDepth = maxDepth
  sorted : Sorted side view.rows
  positive : ∀ row ∈ view.rows, 0 < row.amount
  few : view.rows.length ≤ maxDepth

section Ranked
variable {side : Side} {maxDepth : Nat} {view later : DepthView} {changed : Bool}
  {price amount : Decimal} {order : Order}

theorem Ranked.prices_nodup (ranked : view.Ranked side maxDepth) :
    (view.rows.map fun row => row.price.value).Nodup :=
  List.pairwise_map.mpr (ranked.sorted.imp Side.value_ne_of_better)

theorem removeAt_lowered (removed : view.removeAt price amount = .ok (changed, later)) :
    Lowered price amount view changed later := by
  obtain ⟨result, taken, rest⟩ := (bind_eq_ok _ _ _).mp removed
  cases result with
  | none =>
      cases rest
      refine .absent fun row member => ?_
      rw [Decimal.equiv_iff_value]
      exact removeRow_eq_none taken row member
  | some rows =>
      cases rest
      obtain ⟨before, row, after, left, split, here, subtracted, rfl⟩ := removeRow_eq_some taken
      rw [← Decimal.equiv_iff_value] at here
      split_ifs with nothing
      · exact .dropped split here subtracted nothing
      · exact .kept split here subtracted (Decimal.pos_iff.mpr (Decimal.not_nonpos_iff.mp nothing))

theorem Ranked.empty (side : Side) (maxDepth : Nat) :
    (DepthView.empty side maxDepth).Ranked side maxDepth where
  side_eq := rfl
  maxDepth_eq := rfl
  sorted := .nil
  positive := nofun
  few := Nat.zero_le _

theorem Ranked.lowered (ranked : view.Ranked side maxDepth)
    (lowered : Lowered price amount view changed later) : later.Ranked side maxDepth := by
  obtain ⟨side_eq, maxDepth_eq, sorted, positive, few⟩ := ranked
  cases lowered with
  | absent apart => exact ⟨side_eq, maxDepth_eq, sorted, positive, few⟩
  | @kept before after row left rows here subtracted more =>
      rw [rows] at sorted positive few
      refine ⟨side_eq, maxDepth_eq, sorted.of_prices (by simp), ?_, by simpa using few⟩
      obtain ⟨first, rest⟩ := List.forall_mem_append.mp positive
      exact List.forall_mem_append.mpr
        ⟨first, List.forall_mem_cons.mpr ⟨more, (List.forall_mem_cons.mp rest).2⟩⟩
  | @dropped before after row left rows here subtracted nothing =>
      rw [rows] at sorted positive few
      have fewer : (before ++ after).Sublist (before ++ row :: after) :=
        (List.sublist_cons_self row after).append_left before
      exact ⟨side_eq, maxDepth_eq, sorted.sublist fewer,
        fun other member => positive other (fewer.subset member), fewer.length_le.trans few⟩

theorem Ranked.insertRow {rows : List DepthRow} (ranked : view.Ranked side maxDepth)
    (adds : 0 < amount)
    (inserted : insertRow side price amount maxDepth view.rows = .ok (some rows)) :
    ({ view with rows } : DepthView).Ranked side maxDepth := by
  obtain ⟨side_eq, maxDepth_eq, sorted, positive, few⟩ := ranked
  rcases insertRow_cases sorted inserted with ⟨before, row, after, sum, split, -, added, result⟩ |
    ⟨before, after, split, near, far, result⟩
  · cases result
    rw [split] at sorted positive few
    obtain ⟨first, rest⟩ := List.forall_mem_append.mp positive
    obtain ⟨own, last⟩ := List.forall_mem_cons.mp rest
    have grown : 0 < sum := by
      rw [Decimal.pos_iff] at own adds ⊢
      exact Decimal.add_pos own.le adds added
    exact ⟨side_eq, maxDepth_eq, sorted.of_prices (by simp),
      List.forall_mem_append.mpr ⟨first, List.forall_mem_cons.mpr ⟨grown, last⟩⟩,
      by simpa using few⟩
  · split_ifs at result with within
    cases result
    rw [split] at sorted positive
    obtain ⟨first, last⟩ := List.forall_mem_append.mp positive
    have fewer := List.take_sublist maxDepth (before ++ ⟨price, amount⟩ :: after)
    have whole : Sorted side (before ++ ⟨price, amount⟩ :: after) :=
      sorted.insert (List.Sublist.refl after) near far
    refine ⟨side_eq, maxDepth_eq, whole.sublist fewer, ?_, List.length_take_le _ _⟩
    exact fun row member => List.forall_mem_append.mpr
      ⟨first, List.forall_mem_cons.mpr ⟨adds, last⟩⟩ row (fewer.subset member)

theorem Ranked.insert (ranked : view.Ranked side maxDepth)
    (inserted : view.insert order = .ok (changed, later)) : later.Ranked side maxDepth := by
  unfold DepthView.insert at inserted
  split_ifs at inserted
  · obtain ⟨remaining, -, rest⟩ := (bind_eq_ok _ _ _).mp inserted
    split_ifs at rest with nothing
    · cases rest
      exact ranked
    · obtain ⟨result, put, ended⟩ := (bind_eq_ok _ _ _).mp rest
      rw [ranked.side_eq, ranked.maxDepth_eq] at put
      cases result with
      | none =>
          cases ended
          exact ranked
      | some rows =>
          cases ended
          exact ranked.insertRow (Decimal.pos_iff.mpr (Decimal.not_nonpos_iff.mp nothing)) put
  · cases inserted
    exact ranked

theorem Ranked.remove (ranked : view.Ranked side maxDepth)
    (removed : view.remove order amount = .ok (changed, later)) : later.Ranked side maxDepth := by
  unfold DepthView.remove at removed
  split_ifs at removed
  · exact ranked.lowered (removeAt_lowered removed)
  · cases removed
    exact ranked

theorem Ranked.removeMany {deltas : List (Decimal × Decimal)} (ranked : view.Ranked side maxDepth)
    (removed : view.removeMany deltas = .ok (changed, later)) : later.Ranked side maxDepth := by
  induction deltas generalizing view changed with
  | nil =>
      cases removed
      exact ranked
  | cons delta rest ih =>
      simp only [DepthView.removeMany, bind_eq_ok, return_eq_ok] at removed
      obtain ⟨⟨_, middle⟩, taken, ⟨_, last⟩, others, same⟩ := removed
      cases same
      exact ih (ranked.lowered (removeAt_lowered taken)) others

/-- No change takes a view out of its order. -/
theorem Ranked.apply {change : Change} (ranked : view.Ranked side maxDepth)
    (applied : view.apply change = .ok (changed, later)) : later.Ranked side maxDepth := by
  cases change with
  | insert order => exact ranked.insert applied
  | remove order amount => exact ranked.remove applied
  | removeAt price amount => exact ranked.lowered (removeAt_lowered applied)
  | removeMany deltas => exact ranked.removeMany applied

theorem Ranked.applyAll {changes : List Change} (ranked : view.Ranked side maxDepth)
    (run : view.applyAll changes = .ok later) : later.Ranked side maxDepth := by
  induction changes generalizing view with
  | nil =>
      cases run
      exact ranked
  | cons change rest ih =>
      obtain ⟨⟨_, middle⟩, applied, others⟩ := (bind_eq_ok _ _ _).mp run
      exact ih (ranked.apply applied) others

theorem apply_follows {change : Change} (applied : view.apply change = .ok (changed, later)) :
    view.Follows changed later := by
  cases change with
  | insert order => exact insert_follows applied
  | remove order amount => exact remove_follows applied
  | removeAt price amount => exact removeAt_follows applied
  | removeMany deltas => exact removeMany_follows applied

theorem Ranked.apart (ranked : view.Ranked side maxDepth) :
    view.rows.Pairwise fun one other => ¬ one.price ≈ other.price :=
  ranked.sorted.imp Side.not_equiv_of_better

end Ranked

end DepthView

namespace Market

/-- Both views of a market are in good order, with as much room as its listing gives. -/
def Ranked (market : Market) : Prop :=
  ∀ side, (market.depth side).Ranked side market.listing.maxDepth

section Ranked
variable {market later : Market}

theorem Ranked.of_frame (ranked : market.Ranked) (same : later.depths = market.depths)
    (listing : later.listing = market.listing) : later.Ranked := by
  unfold Ranked
  rw [depth_congr same, listing]
  exact ranked

theorem Ranked.finish {pass : Pass} {report : Report} (ranked : market.Ranked)
    (ended : market.finish pass = .ok (report, later)) : later.Ranked := by
  have listing : later.listing = market.listing := by rw [(finish_cases ended).2.1]
  obtain ⟨⟨_, removed⟩, own⟩ := depths_of_finish ended
  unfold Ranked
  rw [listing]
  refine OrderBook.forall_side pass.taker.side ?_ ((ranked _).removeMany removed)
  rcases own with ⟨-, same⟩ | ⟨-, -, -, _, inserted⟩
  · rw [same]
    exact ranked pass.taker.side
  · exact (ranked pass.taker.side).insert inserted

theorem Ranked.cancel {request : CancelRequest} {removed : Option Order} (ranked : market.Ranked)
    (cancelled : market.cancel request = .ok (removed, later)) : later.Ranked := by
  rcases cancel_cases cancelled with ⟨-, rfl⟩ |
    ⟨order, -, -, -, frame, ⟨-, same⟩ | ⟨_, _, view, -, taken, set⟩⟩
  · exact ranked
  · exact ranked.of_frame same (by rw [frame])
  · obtain ⟨own, other⟩ := depth_of_set set
    unfold Ranked
    rw [frame]
    refine OrderBook.forall_side order.side ?_ ?_
    · exact own ▸ (ranked order.side).remove taken
    · exact other ▸ ranked order.side.opposite

theorem Ranked.perform {action : Action} {answer : Answer}
    (formed : market.book.WellFormed market.symbol) (ranked : market.Ranked)
    (performed : market.perform action = .ok (answer, later)) : later.Ranked := by
  cases action with
  | trade now order =>
      simp only [Market.perform, bind_eq_ok, return_eq_ok] at performed
      obtain ⟨⟨outcome, after⟩, traded, same⟩ := performed
      cases same
      rcases trade_cases traded with ⟨_, -, -, rfl⟩ | ⟨report, pass, middle, -, -, matched, ended⟩
      · exact ranked
      · have frame := (matchOrder_stage formed matched).frame
        exact (ranked.of_frame (by rw [frame]) (by rw [frame])).finish ended
  | cancel request =>
      simp only [Market.perform, bind_eq_ok, return_eq_ok] at performed
      obtain ⟨⟨removed, after⟩, cancelled, same⟩ := performed
      cases same
      exact ranked.cancel cancelled
  | halt =>
      cases performed
      exact ranked
  | resume =>
      cases performed
      exact ranked
  | setReady ready =>
      cases performed
      exact ranked

theorem ranked_of_replay {listing : Listing} {actions : List Action} {history : History}
    (run : Market.replay listing actions = .ok (history, market)) : market.Ranked := by
  refine replay_induction (motive := fun _ market => market.Ranked) ?_ ?_ run
  · intro side
    cases side <;> exact .empty _ _
  · exact fun formed ranked performed => ranked.perform formed performed

end Ranked

end Market

/-- After any changes to an empty view its rows stand best price first, no two of them at
one price; each shows a positive amount; there are at most as many as the view has room
for; and a further change that tells of none leaves the view as it is. -/
theorem depth_rows_ranked {side : Side} {maxDepth : Nat} {changes : List DepthView.Change}
    {view : DepthView} (run : (DepthView.empty side maxDepth).applyAll changes = .ok view) :
    view.rows.Pairwise (fun near far => side.better near.price far.price = true) ∧
      view.rows.Pairwise (fun one other => ¬ one.price ≈ other.price) ∧
      (∀ row ∈ view.rows, 0 < row.amount) ∧ view.rows.length ≤ maxDepth ∧
      ∀ change later, view.apply change = .ok (false, later) → later = view := by
  have ranked := (DepthView.Ranked.empty side maxDepth).applyAll run
  exact ⟨ranked.sorted, ranked.apart, ranked.positive, ranked.few,
    fun _ _ applied => (DepthView.apply_follows applied).same rfl⟩

theorem sample_rows_ranked : ∃ view,
    (DepthView.empty .buy 2).applyAll
        [.insert History.issueBid,
          .insert { History.issueBid with price := .ofParts 99 0 },
          .insert { History.issueBid with price := .ofParts 100 0 },
          .removeMany [(.ofParts 100 0, (Decimal.ofParts 4 0).negate),
            (.ofParts 101 0, .ofParts 6 0)]] =
      .ok view ∧
    view.rows.map (fun row => (row.price.coefficient, row.amount.coefficient)) = [(100, 9)] ∧
    (∀ row ∈ view.rows, 0 < row.amount) ∧ view.rows.length ≤ 2 := by
  obtain ⟨view, ran, rows⟩ : ∃ view,
      (DepthView.empty .buy 2).applyAll
          [.insert History.issueBid,
            .insert { History.issueBid with price := .ofParts 99 0 },
            .insert { History.issueBid with price := .ofParts 100 0 },
            .removeMany [(.ofParts 100 0, (Decimal.ofParts 4 0).negate),
              (.ofParts 101 0, .ofParts 6 0)]] =
        .ok view ∧
      view.rows.map (fun row => (row.price.coefficient, row.amount.coefficient)) = [(100, 9)] :=
    ⟨_, rfl, by decide +kernel⟩
  obtain ⟨-, -, positive, few, -⟩ := depth_rows_ranked ran
  exact ⟨view, ran, rows, positive, few⟩

end SpotExchange
